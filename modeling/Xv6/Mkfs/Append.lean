import Xv6.Mkfs.Code
import Xv6.Fs.Blocks

/-!
# What `iappend` does to one file

The loop of `iappend` as a sequence of edits of the file's view. `iappendFrom_spec` says that the
loop ends with the bytes appended, every block that it has taken from the counter in the file, and
nothing else on the image changed, as long as the file does not get too large and the image has
enough blocks; and that it ends the program otherwise.
-/

namespace Xv6.Mkfs

open Bytes Fs Ownership FileView Function List

/-! ### Sectors -/

theorem seek_of_lt {sec : Nat} (h : sec < 2 ^ 22) : seek sec = sec := by
  have hsize : BSIZE = 1024 := rfl
  unfold seek
  rw [hsize]
  omega

section Sectors

variable {image : Image} {sec : Nat}

section

variable (hlen : image.length = FSSIZE)
include hlen

theorem rsect_ok (h : sec < FSSIZE) : rsect image sec = .ok (image.sector sec) := by
  have hsize : FSSIZE = 2000 := rfl
  rw [rsect, seek_of_lt (by omega), if_pos (by omega)]

theorem rsect_error (h : FSSIZE ≤ sec) (hlt : sec < 2 ^ 22) : rsect image sec = .error .read := by
  rw [rsect, seek_of_lt hlt, if_neg (by omega)]

theorem wsect_eq (h : sec < FSSIZE) (buf : Block) :
    wsect image sec buf = ⟨update image.sector sec buf, FSSIZE⟩ := by
  have hsize : FSSIZE = 2000 := rfl
  rw [wsect, seek_of_lt (by omega), hlen, Nat.max_eq_left (by omega)]

end

end Sectors

/-! ### Taking blocks from the counter -/

namespace Cursor

/-- The file that the loop works on. -/
def view (c : Cursor) : FileView := ⟨c.din, c.image.sector⟩

/-- The counter is above all blocks of the file, and what it has not reached is blank. -/
structure Ok (c : Cursor) : Prop where
  length : c.image.length = FSSIZE
  low : nmeta ≤ c.freeblock
  blank : ∀ b, c.freeblock ≤ b → c.image.sector b = .zeros
  distinct : Distinct c.view.slot
  owned : ∀ b, c.view.Owns b → nmeta ≤ b ∧ b < c.freeblock

/-- The file has got blocks from the counter, and all that were taken. -/
structure Advances (touched : Slot → Prop) (c c' : Cursor) : Prop where
  ok : c'.Ok
  le : c.freeblock ≤ c'.freeblock
  edit : Edit (fun b => c.freeblock ≤ b) touched c.view c'.view
  taken : ∀ b, c.freeblock ≤ b → b < c'.freeblock → c'.view.Owns b

variable {c c' c'' : Cursor} {touched touched' : Slot → Prop}

theorem Advances.refl (h : c.Ok) (htouched : ∀ s, touched s → c.view.slot s ≠ 0) :
    Advances touched c c where
  ok := h
  le := le_refl _
  edit := .refl h.distinct htouched
  taken _ hle hlt := absurd hlt (by omega)

theorem Advances.trans (h : Advances touched c c') (h' : Advances touched' c' c'') :
    Advances (fun s => touched s ∨ touched' s) c c'' where
  ok := h'.ok
  le := h.le.trans h'.le
  edit := h.edit.trans (h'.edit.mono (fun _ hb => h.le.trans hb) fun _ => Iff.rfl)
  taken b hle hlt := by
    by_cases hb : b < c'.freeblock
    · exact h'.edit.owns (h.taken b hle hb)
    · exact h'.taken b (by omega) hlt

theorem Advances.congr (h : Advances touched c c') (htouched : ∀ s, touched s ↔ touched' s) :
    Advances touched' c c' :=
  { h with edit := h.edit.mono (fun _ hb => hb) htouched }

theorem Ok.fits (h : c.Ok) (hhigh : c.freeblock < 2 ^ 32) {s : Slot} (hs : c.view.slot s = 0)
    (hind : ∀ j, s = .entry j → c.view.slot .indirect ≠ 0) : c.view.Fits s c.freeblock where
  empty := hs
  pos := by
    have := h.low
    have hmeta : nmeta = 46 := rfl
    omega
  lt := hhigh
  new hown := absurd (h.owned _ hown).2 (by omega)
  indirect := hind

/-- A cursor whose file has got the next block in one of its slots. -/
theorem Ok.advance (h : c.Ok) {s : Slot} (hfits : c.view.Fits s c.freeblock)
    (hview : c'.view = c.view.setSlot s c.freeblock) (hcount : c'.freeblock = c.freeblock + 1)
    (hlen : c'.image.length = FSSIZE) : Advances (· = s) c c' := by
  have hedit : Edit (fun b => c.freeblock ≤ b) (· = s) c.view c'.view := by
    rw [hview]
    exact edit_setSlot h.distinct hfits (le_refl _)
  have hslot : c'.view.slot = update c.view.slot s c.freeblock := by
    rw [hview, slot_setSlot hfits]
  have howned : ∀ b, c'.view.Owns b → c.view.Owns b ∨ b = c.freeblock := by
    rintro b ⟨hpos, t, ht⟩
    rw [hslot] at ht
    rcases eq_or_ne t s with rfl | hts
    · exact .inr (by rw [← ht, update_self])
    · exact .inl ⟨hpos, t, by rw [← ht, update_of_ne hts]⟩
  refine ⟨⟨hlen, ?_, ?_, hedit.distinct, ?_⟩, by omega, hedit, ?_⟩
  · have := h.low
    omega
  · intro b hb
    have hnot : ¬ c'.view.Owns b := by
      intro hown
      rcases howned b hown with hold | rfl
      · have := (h.owned b hold).2
        omega
      · omega
    rw [show c'.image.sector b = c.image.sector b from hedit.frame b hnot]
    exact h.blank b (by omega)
  · intro b hown
    rcases howned b hown with hold | rfl
    · have := h.owned b hold
      omega
    · have := h.low
      omega
  · intro b hle hlt
    obtain rfl : b = c.freeblock := by omega
    exact ⟨hfits.pos, s, by rw [hslot, update_self]⟩

end Cursor

open Cursor

variable {c : Cursor} {k : Fin (NDIRECT + 1)}

theorem allocSlot_used (h : c.view.slot (.addr k) ≠ 0) : allocSlot c k = c := by
  refine if_neg fun hzero => h ?_
  show (c.din.addrs k).toNat = 0
  rw [hzero]
  rfl

theorem allocSlot_empty (hok : c.Ok) (hhigh : c.freeblock < 2 ^ 32)
    (h : c.view.slot (.addr k) = 0) :
    Advances (· = .addr k) c (allocSlot c k) ∧ (allocSlot c k).freeblock = c.freeblock + 1 ∧
      (allocSlot c k).view = c.view.setSlot (.addr k) c.freeblock := by
  have hzero : c.din.addrs k = 0 := BitVec.eq_of_toNat_eq h
  have hfits := hok.fits hhigh h (nofun)
  have heq : allocSlot c k = { c with
      freeblock := c.freeblock + 1
      din := { c.din with
        addrs := update c.din.addrs k (BitVec.ofNat 32 c.freeblock) } } := if_pos hzero
  have hblank : update c.image.sector c.freeblock .zeros = c.image.sector := by
    rw [update_eq_self_iff]
    exact (hok.blank _ (le_refl _)).symm
  have hview : (allocSlot c k).view = c.view.setSlot (.addr k) c.freeblock := by
    rw [heq]
    simp only [view, setSlot, hblank]
  refine ⟨hok.advance hfits hview (by rw [heq]) ?_, by rw [heq], hview⟩
  rw [heq]
  exact hok.length

variable {j : Fin NINDIRECT}

theorem allocEntry_used (hlen : c.image.length = FSSIZE) (hind : c.view.slot .indirect < FSSIZE)
    (h : c.view.slot (.entry j) ≠ 0) :
    allocEntry c j = .ok (c.view.slot (.entry j), c) := by
  have hentry : c.view.slot (.entry j) =
      (c.image.sector (c.view.slot .indirect)).readLE 4 (4 * j) := by
    rw [slot_entry, if_neg (indirect_ne_zero h)]
    rfl
  have hread : rsect c.image (c.din.addrs (Fin.last NDIRECT)).toNat =
      .ok (c.image.sector (c.view.slot .indirect)) := rsect_ok hlen hind
  rw [hentry] at h ⊢
  simp only [allocEntry, hread]
  exact if_neg h

theorem allocEntry_empty (hok : c.Ok) (hhigh : c.freeblock < 2 ^ 32)
    (hind : c.view.slot .indirect < FSSIZE) (hpos : c.view.slot .indirect ≠ 0)
    (h : c.view.slot (.entry j) = 0) :
    ∃ c', allocEntry c j = .ok (c.freeblock, c') ∧ Advances (· = .entry j) c c' ∧
      c'.freeblock = c.freeblock + 1 ∧ c'.view = c.view.setSlot (.entry j) c.freeblock := by
  have hfits := hok.fits hhigh h (fun _ _ => hpos)
  have hentry : (c.image.sector (c.view.slot .indirect)).readLE 4 (4 * j) = 0 := by
    rwa [slot_entry, if_neg hpos] at h
  have hread : rsect c.image (c.din.addrs (Fin.last NDIRECT)).toNat =
      .ok (c.image.sector (c.view.slot .indirect)) := rsect_ok hok.length hind
  have hback : ((c.image.sector (c.view.slot .indirect)).writeLE 4 (4 * j) c.freeblock).readLE 4
      (4 * j) = c.freeblock := by
    have hfit : 4 * j.val + 4 ≤ BSIZE := by
      have hj : j.val < 256 := j.isLt
      have hsize : BSIZE = 1024 := rfl
      omega
    rw [Buffer.readLE_writeLE_same _ _ hfit]
    exact Nat.mod_eq_of_lt hhigh
  have hblank : update c.image.sector c.freeblock .zeros = c.image.sector := by
    rw [update_eq_self_iff]
    exact (hok.blank _ (le_refl _)).symm
  have hwrite := wsect_eq hok.length hind
    ((c.image.sector (c.view.slot .indirect)).writeLE 4 (4 * j) c.freeblock)
  obtain ⟨c', hc'⟩ : ∃ c' : Cursor, c' = { c with
      image := ⟨update c.image.sector (c.view.slot .indirect)
        ((c.image.sector (c.view.slot .indirect)).writeLE 4 (4 * j) c.freeblock), FSSIZE⟩
      freeblock := c.freeblock + 1 } := ⟨_, rfl⟩
  have hview : c'.view = c.view.setSlot (.entry j) c.freeblock := by
    rw [hc']
    simp only [view, setSlot, hblank]
  have hcount : c'.freeblock = c.freeblock + 1 := by rw [hc']
  refine ⟨c', ?_, hok.advance hfits hview hcount (by rw [hc']), hcount, hview⟩
  simp only [allocEntry, hread, bind, Except.bind, hentry, if_true, hback]
  rw [hc', ← hwrite]
  rfl

/-! ### One round of the loop -/

/-- The number of blocks that have to be allocated before block `fbn` can be written. -/
def Cursor.missing (c : Cursor) (fbn : Nat) : Nat :=
  (if c.view.block fbn = 0 then 1 else 0) +
    (if NDIRECT ≤ fbn ∧ c.view.slot .indirect = 0 then 1 else 0)

/-- Block `fbn` is in the file, and the bytes of the file are as before. -/
structure Cursor.Maps (c : Cursor) (fbn : Nat) (c' : Cursor) : Prop where
  advances : Advances (Slot.LeadsTo fbn) c c'
  byte : ∀ k, c'.view.byte k = c.view.byte k
  count : c'.freeblock = c.freeblock + c.missing fbn
  readable : c'.view.block fbn < FSSIZE ↔ c'.freeblock ≤ FSSIZE

variable {fbn : Nat}

section

variable (hok : c.Ok)
include hok

section

variable (hhigh : c.freeblock ≤ FSSIZE)
include hhigh

theorem Cursor.Ok.maps_self
    (h : c.view.block fbn ≠ 0) (hind : NDIRECT ≤ fbn → c.view.slot .indirect ≠ 0) :
    c.Maps fbn c where
  advances := .refl hok fun s hs => by
    rcases hs with hof | ⟨hbig, rfl⟩
    · rwa [block_of_ofBlock hof] at h
    · exact hind hbig
  byte _ := rfl
  count := by
    rw [missing, if_neg h, if_neg fun hand => hind hand.1 hand.2]
    rfl
  readable := by
    have := (hok.owned _ (owns_block h)).2
    omega

/-- A cursor whose file has got the next block for block `fbn`. -/
theorem Cursor.Ok.maps_new {c' : Cursor}
    {s : Slot} (hof : Slot.ofBlock fbn = some s) (hs : c.view.slot s = 0)
    (hind : NDIRECT ≤ fbn → c.view.slot .indirect ≠ 0) (hadv : Advances (· = s) c c')
    (hcount : c'.freeblock = c.freeblock + 1) (hview : c'.view = c.view.setSlot s c.freeblock)
    (hfits : c.view.Fits s c.freeblock) : c.Maps fbn c' := by
  have hzero : c.view.block fbn = 0 := by rw [block_of_ofBlock hof, hs]
  have hblock : c'.view.block fbn = c.freeblock := by
    rw [hview, block_setSlot hfits, if_pos hof]
  refine ⟨?_, ?_, ?_, ?_⟩
  · -- The slot of the indirect block is in use already, so only `s` is new.
    have hsame : Advances (fun t => NDIRECT ≤ fbn ∧ t = .indirect) c c := by
      refine .refl hok ?_
      rintro t ⟨hbig, rfl⟩
      exact hind hbig
    refine (hsame.trans hadv).congr ?_
    intro t
    unfold Slot.LeadsTo
    rw [hof, Option.some.injEq, or_comm, eq_comm]
  · intro k
    rw [hview, byte_setSlot hok.distinct hfits]
  · rw [hcount, missing, if_pos hzero, if_neg fun hand => hind hand.1 hand.2]
  · rw [hblock, hcount]
    omega

theorem sectorOf_direct (h : fbn < NDIRECT) :
    ∃ c', sectorOf c fbn = .ok (c'.view.block fbn, c') ∧ c.Maps fbn c' := by
  have hof := Slot.ofBlock_direct h
  have hsize : FSSIZE = 2000 := rfl
  have hrun : ∀ c' : Cursor, allocSlot c (Fin.castSucc ⟨fbn, h⟩) = c' →
      sectorOf c fbn = .ok (c'.view.block fbn, c') := by
    rintro c' rfl
    rw [sectorOf, dif_pos h, block_of_ofBlock hof]
    rfl
  by_cases hs : c.view.slot (.addr (Fin.castSucc ⟨fbn, h⟩)) = 0
  · have hfits := hok.fits (by omega) hs (nofun)
    obtain ⟨hadv, hcount, hview⟩ := allocSlot_empty hok (by omega) hs
    exact ⟨_, hrun _ rfl, hok.maps_new hhigh hof hs (by omega) hadv hcount hview hfits⟩
  · refine ⟨c, hrun c (allocSlot_used hs), hok.maps_self hhigh ?_ (by omega)⟩
    rwa [block_of_ofBlock hof]

theorem allocEntry_maps
    (h : ¬ fbn < NDIRECT) (h' : fbn - NDIRECT < NINDIRECT) (hind : c.view.slot .indirect ≠ 0) :
    ∃ c', allocEntry c (fbn - NDIRECT) = .ok (c'.view.block fbn, c') ∧ c.Maps fbn c' := by
  have hof := Slot.ofBlock_entry h h'
  have hsize : FSSIZE = 2000 := rfl
  have hlt : c.view.slot .indirect < FSSIZE :=
    lt_of_lt_of_le (hok.owned _ (Lists.intro hind)).2 hhigh
  by_cases hs : c.view.slot (.entry ⟨fbn - NDIRECT, h'⟩) = 0
  · have hfits := hok.fits (by omega) hs (fun _ _ => hind)
    obtain ⟨c', hrun, hadv, hcount, hview⟩ := allocEntry_empty hok (by omega) hlt hind hs
    have hblock : c'.view.block fbn = c.freeblock := by
      rw [hview, block_setSlot hfits, if_pos hof]
    refine ⟨c', ?_, hok.maps_new hhigh hof hs (fun _ => hind) hadv hcount hview hfits⟩
    rwa [hblock]
  · have hrun := allocEntry_used hok.length hlt hs
    refine ⟨c, ?_, hok.maps_self hhigh ?_ fun _ => hind⟩
    · rwa [block_of_ofBlock hof]
    · rwa [block_of_ofBlock hof]

/-- `sectorOf` puts what is missing into the file, unless the image has no block left for it. -/
theorem sectorOf_spec (hfbn : fbn < MAXFILE) :
    (∃ c', sectorOf c fbn = .ok (c'.view.block fbn, c') ∧ c.Maps fbn c') ∨
      (sectorOf c fbn = .error .read ∧ FSSIZE < c.freeblock + c.missing fbn) := by
  have hsize : FSSIZE = 2000 := rfl
  by_cases h : fbn < NDIRECT
  · exact .inl (sectorOf_direct hok hhigh h)
  have h' : fbn - NDIRECT < NINDIRECT := by
    unfold MAXFILE at hfbn
    omega
  have hof := Slot.ofBlock_entry h h'
  have hrun : sectorOf c fbn =
      allocEntry (allocSlot c (Fin.last NDIRECT)) (fbn - NDIRECT) := dif_neg h
  rw [hrun]
  by_cases hind : c.view.slot .indirect = 0
  · obtain ⟨hadv, hcount, hview⟩ := allocSlot_empty hok (by omega) hind
    obtain ⟨c₁, hc₁⟩ : ∃ c₁, allocSlot c (Fin.last NDIRECT) = c₁ := ⟨_, rfl⟩
    have hfits := hok.fits (by omega) hind (nofun)
    rw [hc₁] at hadv hcount hview ⊢
    change c₁.view = c.view.setSlot .indirect c.freeblock at hview
    have hzero : c.view.block fbn = 0 := by
      rw [block_of_ofBlock hof, slot_entry, if_pos hind]
    have hzero₁ : c₁.view.block fbn = 0 := by
      have hne : Slot.ofBlock fbn ≠ some .indirect := by
        rw [hof]
        exact fun heq => Slot.indirect_ne_entry _ (Option.some.inj heq).symm
      rw [hview, block_setSlot hfits, if_neg hne, hzero]
    have hind₁ : c₁.view.slot .indirect = c.freeblock := by
      rw [hview, slot_setSlot hfits, update_self]
    have hmissing : c.missing fbn = 2 := by
      rw [Cursor.missing, if_pos hzero, if_pos ⟨by omega, hind⟩]
    by_cases hroom : c.freeblock < FSSIZE
    · left
      obtain ⟨c', hentry, hmaps⟩ :=
        allocEntry_maps hadv.ok (by omega) h h' (by rw [hind₁]; exact hfits.pos)
      have hmissing₁ : c₁.missing fbn = 1 := by
        rw [Cursor.missing, if_pos hzero₁, if_neg]
        rw [hind₁]
        exact fun hand => hfits.pos hand.2
      refine ⟨c', hentry, ?_, ?_, ?_, hmaps.readable⟩
      · refine (hadv.trans hmaps.advances).congr fun s => ?_
        show s = .indirect ∨ Slot.LeadsTo fbn s ↔ _
        unfold Slot.LeadsTo
        have hbig : NDIRECT ≤ fbn := by omega
        tauto
      · intro k
        rw [hmaps.byte, hview, byte_setSlot hok.distinct hfits]
      · rw [hmaps.count, hcount, hmissing, hmissing₁]
    · right
      have hread : rsect c₁.image (c₁.din.addrs (Fin.last NDIRECT)).toNat = .error .read := by
        have haddr : (c₁.din.addrs (Fin.last NDIRECT)).toNat = c.freeblock := hind₁
        exact rsect_error hadv.ok.length (by omega) (by omega)
      refine ⟨?_, by omega⟩
      simp only [allocEntry, hread]
      rfl
  · rw [allocSlot_used hind]
    exact .inl (allocEntry_maps hok hhigh h h' hind)

end

theorem Cursor.Ok.store {c' : Cursor} {fbn o m : Nat} {bytes : Nat → Nat}
    (hblock : c.view.block fbn ≠ 0) (hview : c'.view = c.view.store (c.view.block fbn) o m bytes)
    (hcount : c'.freeblock = c.freeblock) (hlen : c'.image.length = FSSIZE) :
    Advances (fun _ => False) c c' := by
  have hedit : Edit (fun b => c.freeblock ≤ b) (fun _ => False) c.view c'.view := by
    rw [hview]
    exact edit_store hok.distinct bytes hblock
  have howned : ∀ b, c'.view.Owns b → nmeta ≤ b ∧ b < c.freeblock := by
    intro b hb
    rw [hview, Owns, slot_store hok.distinct bytes hblock] at hb
    exact hok.owned b hb
  refine ⟨⟨hlen, ?_, ?_, hedit.distinct, ?_⟩, hcount.ge, hedit, ?_⟩
  · rw [hcount]
    exact hok.low
  · intro b hb
    rw [hcount] at hb
    have hnot : ¬ c'.view.Owns b := fun hown => absurd (howned b hown).2 (by omega)
    rw [show c'.image.sector b = c.image.sector b from hedit.frame b hnot]
    exact hok.blank b hb
  · rwa [hcount]
  · intro b hle hlt
    omega

end

variable {off n : Nat}

theorem missing_eq (hused : ∀ s, c.view.slot s ≠ 0 ↔ s.start < off)
    (hn : 0 < n) (hend : off % BSIZE + n ≤ BSIZE) (hfbn : off / BSIZE < MAXFILE) :
    c.missing (off / BSIZE) + blocksFor off = blocksFor (off + n) := by
  have hsize : BSIZE = 1024 := rfl
  have hdirect : NDIRECT = 12 := rfl
  obtain ⟨s, hof⟩ := Slot.exists_ofBlock hfbn
  have hstart := (Slot.ofBlock_eq_some.mp hof).2
  have hblock : c.view.block (off / BSIZE) = 0 ↔ off ≤ off / BSIZE * BSIZE := by
    have := hused s
    rw [block_of_ofBlock hof]
    omega
  have hind : c.view.slot .indirect = 0 ↔ off ≤ NDIRECT * BSIZE := by
    have := hused .indirect
    rw [show Slot.indirect.start = NDIRECT * BSIZE from rfl] at this
    omega
  unfold Cursor.missing blocksFor
  simp only [hblock, hind]
  rw [hsize] at hend
  rw [hdirect, hsize]
  split <;> split <;> split <;> split <;> omega

/-- The bytes of the file after some were appended. -/
def Appended (off : Nat) (p : List UInt8) (F F' : FileView) : Prop :=
  ∀ k, F'.byte k = if off ≤ k ∧ k < off + p.length then (p.getD (k - off) 0).toNat else F.byte k

variable {p : List UInt8}

/-- One round of the loop appends its piece, or there are not enough blocks. -/
theorem appendPiece_spec (hok : c.Ok) (hhigh : c.freeblock ≤ FSSIZE)
    (hused : ∀ s, c.view.slot s ≠ 0 ↔ s.start < off) (hn : 0 < n)
    (hend : off % BSIZE + n ≤ BSIZE) (hfbn : off / BSIZE < MAXFILE) (hp : n ≤ p.length) :
    (∃ c', appendPiece c (off / BSIZE) off n p = .ok c' ∧ Advances (Slot.Touches off n) c c' ∧
      Appended off (p.take n) c.view c'.view ∧ c'.freeblock ≤ FSSIZE ∧
      c'.freeblock + blocksFor off = c.freeblock + blocksFor (off + n)) ∨
    ((∃ e, appendPiece c (off / BSIZE) off n p = .error e) ∧
      FSSIZE + blocksFor off < c.freeblock + blocksFor (off + n)) := by
  have hsize : BSIZE = 1024 := rfl
  have hcount := missing_eq hused hn hend hfbn
  rcases sectorOf_spec hok hhigh hfbn with ⟨c₁, hrun, hmaps⟩ | ⟨hrun, hfull⟩
  · have hok₁ := hmaps.advances.ok
    have hblock : c₁.view.block (off / BSIZE) ≠ 0 := by
      obtain ⟨s, hof⟩ := Slot.exists_ofBlock hfbn
      rw [block_of_ofBlock hof]
      exact (hmaps.advances.edit.used s).mpr (.inr (.inl hof))
    have hcount₁ := hmaps.count
    by_cases hroom : c₁.freeblock ≤ FSSIZE
    · left
      have hread := rsect_ok hok₁.length (hmaps.readable.mpr hroom)
      have hwrite := wsect_eq hok₁.length (hmaps.readable.mpr hroom)
      obtain ⟨c', hc'⟩ : ∃ c' : Cursor, c' = { c₁ with
          image := ⟨update c₁.image.sector (c₁.view.block (off / BSIZE))
            ((c₁.image.sector (c₁.view.block (off / BSIZE))).splice (off - off / BSIZE * BSIZE) n
              fun k => (p.getD k 0).toNat), FSSIZE⟩ } := ⟨_, rfl⟩
      have hoff : off - off / BSIZE * BSIZE = off % BSIZE := by
        rw [hsize]
        omega
      have hview : c'.view = c₁.view.store (c₁.view.block (off / BSIZE)) (off % BSIZE) n
          fun k => (p.getD k 0).toNat := by
        rw [hc', ← hoff]
        rfl
      have hfree : c'.freeblock = c₁.freeblock := by rw [hc']
      have hadv := hok₁.store hblock hview hfree (by rw [hc'])
      refine ⟨c', ?_, ?_, ?_, by omega, by omega⟩
      · simp only [appendPiece, hrun, hread, bind, Except.bind]
        rw [hc', ← hwrite]
        rfl
      · refine (hmaps.advances.trans hadv).congr fun s => ?_
        rw [or_false]
        refine (Slot.touches_iff_leadsTo hn ?_ ?_ hfbn s).symm
        · rw [hsize]
          omega
        · rw [hsize] at hend ⊢
          omega
      · intro k
        rw [hview, byte_store_piece hok₁.distinct _ hblock hend, hmaps.byte, length_take_of_le hp]
        split
        next hin =>
          have hlt : k - off < n := by omega
          have hbyte := UInt8.toNat_lt (p.getD (k - off) 0)
          rw [Nat.mod_eq_of_lt hbyte, getD_eq_getElem?_getD, getD_eq_getElem?_getD,
            getElem?_take_of_lt hlt]
        next => rfl
    · right
      have hread : rsect c₁.image (c₁.view.block (off / BSIZE)) = .error .read := by
        refine rsect_error hok₁.length ?_ ?_
        · have := hmaps.readable
          omega
        · have hlt := (hok₁.owned _ (owns_block hblock)).2
          have hmissing : c.missing (off / BSIZE) ≤ 2 := by
            unfold Cursor.missing
            split <;> split <;> omega
          have hfs : FSSIZE = 2000 := rfl
          omega
      refine ⟨⟨.read, ?_⟩, by omega⟩
      simp only [appendPiece, hrun, hread, bind, Except.bind]
  · right
    refine ⟨⟨.read, ?_⟩, by omega⟩
    simp only [appendPiece, hrun, bind, Except.bind]

/-! ### The loop -/

theorem Appended.trans {F F' F'' : FileView} (hn : n ≤ p.length)
    (h : Appended off (p.take n) F F') (h' : Appended (off + n) (p.drop n) F' F'') :
    Appended off p F F'' := by
  intro k
  have htake : (p.take n).length = n := length_take_of_le hn
  have hdrop : (p.drop n).length = p.length - n := length_drop
  rw [h' k, h k, htake, hdrop]
  by_cases hlow : off ≤ k ∧ k < off + n
  · rw [if_neg (by omega), if_pos hlow, if_pos (by omega), getD_eq_getElem?_getD,
      getD_eq_getElem?_getD, getElem?_take_of_lt (by omega)]
  · by_cases hhigh : off + n ≤ k ∧ k < off + n + (p.length - n)
    · rw [if_pos hhigh, if_pos (by omega), getD_eq_getElem?_getD,
        getD_eq_getElem?_getD, getElem?_drop]
      congr 3
      omega
    · rw [if_neg hhigh, if_neg hlow, if_neg (by omega)]

/-- The loop appends all bytes, or the file would be too large or there are not enough blocks. -/
theorem iappendFrom_spec {fuel off : Nat} (hfuel : p.length ≤ fuel) (hok : c.Ok)
    (hhigh : c.freeblock ≤ FSSIZE) (hused : ∀ s, c.view.slot s ≠ 0 ↔ s.start < off) :
    (∃ c', iappendFrom fuel c off p = .ok (off + p.length, c') ∧
      Advances (Slot.Touches off p.length) c c' ∧ Appended off p c.view c'.view ∧
      c'.freeblock ≤ FSSIZE ∧
      c'.freeblock + blocksFor off = c.freeblock + blocksFor (off + p.length) ∧
      (p = [] ∨ off + p.length ≤ MAXFILE * BSIZE)) ∨
    ((∃ e, iappendFrom fuel c off p = .error e) ∧ (MAXFILE * BSIZE < off + p.length ∨
        FSSIZE + blocksFor off < c.freeblock + blocksFor (off + p.length))) := by
  induction fuel generalizing c off p with
  | zero =>
    obtain rfl : p = [] := length_eq_zero_iff.mp (by omega)
    exact .inl ⟨c, rfl, .refl hok (fun s hs => absurd hs.1 (by simp)),
      fun k => (if_neg (by simp)).symm, hhigh, rfl, .inl rfl⟩
  | succ fuel ih =>
    by_cases hp : p = []
    · subst hp
      exact .inl ⟨c, rfl, .refl hok (fun s hs => absurd hs.1 (by simp)),
        fun k => (if_neg (by simp)).symm, hhigh, rfl, .inl rfl⟩
    have hpos : 0 < p.length := length_pos_iff.mpr hp
    have hsize : BSIZE = 1024 := rfl
    by_cases hfbn : off / BSIZE < MAXFILE
    · obtain ⟨n, hn⟩ : ∃ n, n = min p.length ((off / BSIZE + 1) * BSIZE - off) := ⟨_, rfl⟩
      have hn' := hn
      rw [hsize] at hn'
      have hn₀ : 0 < n := by omega
      have hnp : n ≤ p.length := by omega
      have hlen : (p.drop n).length = p.length - n := length_drop
      have hrun : iappendFrom (fuel + 1) c off p = appendPiece c (off / BSIZE) off n p >>= fun c =>
            iappendFrom fuel c (off + n) (p.drop n) := by
        rw [iappendFrom, if_neg hp, if_pos hfbn, hn]
      have hend : off % BSIZE + n ≤ BSIZE := by
        rw [hsize]
        omega
      rw [hrun]
      rcases appendPiece_spec hok hhigh hused hn₀ hend hfbn hnp with
        ⟨c₁, hpiece, hadv, happ, hhigh₁, hcount⟩ | ⟨⟨e, hpiece⟩, hfull⟩
      · have hused₁ : ∀ s, c₁.view.slot s ≠ 0 ↔ s.start < off + n := fun s => by
          rw [hadv.edit.used, hused, Slot.start_lt_add]
        have hsum : off + n + (p.drop n).length = off + p.length := by omega
        have hfuel₁ : (p.drop n).length ≤ fuel := by omega
        rw [hpiece]
        rcases ih hfuel₁ hadv.ok hhigh₁ hused₁ with
          ⟨c', hloop, hadv', happ', hhigh', hcount', hmax⟩ | ⟨⟨e, hloop⟩, hbad⟩
        · left
          rw [hsum] at hloop hcount' hmax
          refine ⟨c', hloop, ?_, happ.trans hnp happ', hhigh', by omega, .inr ?_⟩
          · refine (hadv.trans hadv').congr fun s => ?_
            rw [← Slot.touches_add, hlen, show n + (p.length - n) = p.length by omega]
          · rcases hmax with hnil | hmax
            · have hzero : p.length - n = 0 := by rw [← hlen, hnil, length_nil]
              have hle : (off / BSIZE + 1) * BSIZE ≤ MAXFILE * BSIZE := Nat.mul_le_mul_right _ hfbn
              omega
            · exact hmax
        · right
          rw [hsum] at hbad
          refine ⟨⟨e, hloop⟩, ?_⟩
          omega
      · right
        refine ⟨⟨e, by rw [hpiece]; rfl⟩, .inr ?_⟩
        have hmono := blocksFor_mono (show off + n ≤ off + p.length by omega)
        omega
    · right
      refine ⟨⟨.assertion "fbn < MAXFILE", ?_⟩, .inl ?_⟩
      · rw [iappendFrom, if_neg hp, if_neg hfbn]
        rfl
      · have hle : MAXFILE * BSIZE ≤ off / BSIZE * BSIZE := Nat.mul_le_mul_right _ (by omega)
        have hoff : off / BSIZE * BSIZE ≤ off := Nat.div_mul_le_self off BSIZE
        exact Nat.lt_of_le_of_lt (hle.trans hoff) (by omega)

end Xv6.Mkfs
