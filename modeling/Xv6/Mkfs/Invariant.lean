import Xv6.Interleave.Counting
import Xv6.Mkfs.Append

/-!
# What `mkfs` keeps of its image

`Inv s content` says that the image of `s` holds the files `content`, one for each inode that was
allocated, with a block for each part of a file and for nothing else. `ialloc_spec` and
`iappend_spec` say what allocating an inode and appending to a file do to it.
-/

namespace Xv6.Mkfs

open Bytes Fs Ownership FileView Function List Finset

/-! ### Inodes on the image -/

/-- Store an inode on the image. -/
def setInode (sector : Nat → Block) (i : Nat) (d : Dinode) : Nat → Block :=
  update sector (sb.IBLOCK i) (d.encode (i % IPB) (sector (sb.IBLOCK i)))

/-- The inode with number `i`. -/
def inodeAt (sector : Nat → Block) (i : Nat) : Dinode :=
  Dinode.decode (sector (sb.IBLOCK i)) (i % IPB)

section Inodes

variable {sector : Nat → Block} {image : Image} {i j b : Nat} {d : Dinode}

theorem iblock_lt (h : i < NINODES) : sb.IBLOCK i < sb.bmapstart := by
  have hinodes : NINODES = 200 := rfl
  show i / 16 + 32 < 45
  omega

theorem setInode_of_ne (h : b ≠ sb.IBLOCK i) : setInode sector i d b = sector b :=
  update_of_ne h _ _

theorem inodeAt_setInode_self : inodeAt (setInode sector i d) i = d := by
  unfold inodeAt setInode
  rw [update_self]
  exact d.decode_encode_same _ (Nat.mod_lt _ (by decide))

theorem inodeAt_setInode_other (h : j ≠ i) :
    inodeAt (setInode sector i d) j = inodeAt sector j := by
  unfold inodeAt
  by_cases hblock : sb.IBLOCK j = sb.IBLOCK i
  · have hmod : j % IPB ≠ i % IPB := by
      have hj : j / 16 + 32 = i / 16 + 32 := hblock
      show j % 16 ≠ i % 16
      omega
    rw [hblock, setInode, update_self]
    exact d.decode_encode_other _ hmod
  · rw [setInode_of_ne hblock]

theorem rinode_ok (hlen : image.length = FSSIZE) (h : i < NINODES) :
    rinode image i = .ok (inodeAt image.sector i) := by
  have hlt : sb.IBLOCK i < FSSIZE := Nat.lt_trans (iblock_lt h) (by decide)
  rw [rinode, rsect_ok hlen hlt]
  rfl

theorem winode_ok (hlen : image.length = FSSIZE) (h : i < NINODES) :
    winode image i d = .ok ⟨setInode image.sector i d, FSSIZE⟩ := by
  have hlt : sb.IBLOCK i < FSSIZE := Nat.lt_trans (iblock_lt h) (by decide)
  rw [winode, rsect_ok hlen hlt]
  show Except.ok (wsect image (sb.IBLOCK i) _) = _
  rw [wsect_eq hlen hlt]
  rfl

end Inodes

/-! ### The invariant -/

namespace State

/-- The inodes that were allocated. -/
def Used (s : State) (i : Nat) : Prop := ROOTINO ≤ i ∧ i < s.freeinode

/-- The file with inode number `i`. -/
def view (s : State) (i : Nat) : FileView := ⟨inodeAt s.image.sector i, s.image.sector⟩

end State

/-- The image holds the files `content`, and every block that was taken is in one of them. -/
structure Inv (s : State) (content : Nat → List UInt8) : Prop where
  length : s.image.length = FSSIZE
  super : s.image.sector 1 = Buffer.writeFields .zeros sbFields
  first : ROOTINO ≤ s.freeinode
  inodes : s.freeinode ≤ NINODES
  low : nmeta ≤ s.freeblock
  high : s.freeblock ≤ FSSIZE
  blank : ∀ b, s.freeblock ≤ b → s.image.sector b = .zeros
  unused : ∀ i, ¬ s.Used i → content i = []
  bounded : ∀ i, (content i).length ≤ MAXFILE * BSIZE
  type : ∀ i, s.Used i → (s.view i).dinode.type ≠ 0
  size : ∀ i, s.Used i → (s.view i).dinode.size.toNat = (content i).length
  slots : ∀ i, s.Used i → ∀ t, (s.view i).slot t ≠ 0 ↔ t.start < (content i).length
  byte : ∀ i, s.Used i → ∀ k, (s.view i).byte k = ((content i).getD k 0).toNat
  distinct : ∀ i j t u, s.Used i → s.Used j → (s.view i).slot t ≠ 0 →
    (s.view i).slot t = (s.view j).slot u → i = j ∧ t = u
  owned : ∀ i b, s.Used i → (s.view i).Owns b → nmeta ≤ b ∧ b < s.freeblock
  taken : ∀ b, nmeta ≤ b → b < s.freeblock → ∃ i, s.Used i ∧ (s.view i).Owns b
  count : s.freeblock = nmeta + ∑ i ∈ Finset.range s.freeinode, blocksFor (content i).length

namespace Inv

variable {s : State} {content : Nat → List UInt8} {i j : Nat}

section

variable (h : Inv s content) (hi : s.Used i)
include h hi

theorem lt_ninodes : i < NINODES := lt_of_lt_of_le hi.2 h.inodes

theorem distinct_slot : Distinct (s.view i).slot :=
  fun t u ht htu => (h.distinct i i t u hi hi ht htu).2

theorem not_owns (hj : s.Used j) (hij : i ≠ j) {b : Nat}
    (hb : (s.view i).Owns b) : ¬ (s.view j).Owns b := by
  rintro ⟨_, u, hu⟩
  obtain ⟨hpos, t, ht⟩ := hb
  exact hij (h.distinct i j t u hi hj (by rwa [ht]) (by rw [ht, hu])).1

/-- The blocks of files are data blocks, so storing an inode changes none of them. -/
theorem ne_iblock (hj : j < NINODES) {b : Nat} (hb : (s.view i).Owns b) : b ≠ sb.IBLOCK j := by
  have hlow := (h.owned i b hi hb).1
  have hblock := iblock_lt hj
  have hmeta : nmeta = sb.bmapstart + 1 := rfl
  omega

end

end Inv

/-! ### Allocating an inode -/

theorem slot_of_zero {F : FileView} (h : F.dinode.addrs = fun _ => 0) (t : Slot) :
    F.slot t = 0 := by
  have haddr : ∀ k, F.slot (.addr k) = 0 := by
    intro k
    show (F.dinode.addrs k).toNat = 0
    rw [h]
    rfl
  cases t with
  | addr k => exact haddr k
  | entry j => exact (slot_entry j).trans (if_pos (haddr _))

theorem byte_of_zero {F : FileView} (h : ∀ t, F.slot t = 0) (k : Nat) : F.byte k = 0 := by
  refine if_pos ?_
  unfold block
  cases Slot.ofBlock (k / BSIZE) with
  | none => rfl
  | some t => exact h t

variable {s : State} {content : Nat → List UInt8}

/-- The state after an inode without blocks was stored under the next number. -/
theorem inv_ialloc (h : Inv s content) (hroom : s.freeinode < NINODES) {d : Dinode}
    (htype : d.type ≠ 0) (hsize : d.size = 0) (haddrs : d.addrs = fun _ => 0) :
    Inv ⟨⟨setInode s.image.sector s.freeinode d, FSSIZE⟩, s.freeinode + 1, s.freeblock⟩
      content := by
  obtain ⟨s', hs'⟩ : ∃ s' : State, s' =
    ⟨⟨setInode s.image.sector s.freeinode d, FSSIZE⟩, s.freeinode + 1, s.freeblock⟩ := ⟨_, rfl⟩
  rw [← hs']
  have hsector : s'.image.sector = setInode s.image.sector s.freeinode d := by rw [hs']
  have hfree : s'.freeinode = s.freeinode + 1 := by rw [hs']
  have hblock : s'.freeblock = s.freeblock := by rw [hs']
  have hcases : ∀ i, s'.Used i → i ≠ s.freeinode → s.Used i := by
    intro i hi hne
    have := hi.2
    exact ⟨hi.1, by omega⟩
  have hnew : (s'.view s.freeinode).dinode = d := by
    show inodeAt s'.image.sector _ = d
    rw [hsector, inodeAt_setInode_self]
  have hold : ∀ i, s.Used i → (s'.view i).dinode = (s.view i).dinode := by
    intro i hi
    show inodeAt s'.image.sector i = inodeAt s.image.sector i
    rw [hsector, inodeAt_setInode_other (ne_of_lt hi.2)]
  have hdisk : ∀ i, s.Used i → ∀ b, (s.view i).Owns b → (s'.view i).disk b = (s.view i).disk b := by
    intro i hi b hb
    show s'.image.sector b = s.image.sector b
    rw [hsector, setInode_of_ne (h.ne_iblock hi hroom hb)]
  have hslot : ∀ i, s.Used i → (s'.view i).slot = (s.view i).slot := fun i hi =>
    slot_congr (by rw [hold i hi]) fun hne => hdisk i hi _ (.intro hne)
  have hslot₀ : ∀ t, (s'.view s.freeinode).slot t = 0 := fun t =>
    slot_of_zero (by rw [hnew, haddrs]) t
  have hempty : content s.freeinode = [] := h.unused _ fun hused => absurd hused.2 (by omega)
  have hused : ∀ i, s.Used i → s'.Used i := fun i hi => ⟨hi.1, by have := hi.2; omega⟩
  constructor
  · rw [hs']
  · rw [hsector, setInode_of_ne (by show 1 ≠ s.freeinode / 16 + 32; omega)]
    exact h.super
  · have := h.first
    omega
  · omega
  · rw [hblock]
    exact h.low
  · rw [hblock]
    exact h.high
  · intro b hb
    rw [hblock] at hb
    have hlow := h.low
    have hmeta : nmeta = sb.bmapstart + 1 := rfl
    have hlt := iblock_lt hroom
    rw [hsector, setInode_of_ne (by omega)]
    exact h.blank b hb
  · exact fun i hi => h.unused i fun hold => hi (hused i hold)
  · exact h.bounded
  · intro i hi
    rcases eq_or_ne i s.freeinode with rfl | hne
    · rwa [hnew]
    · rw [hold i (hcases i hi hne)]
      exact h.type i (hcases i hi hne)
  · intro i hi
    rcases eq_or_ne i s.freeinode with rfl | hne
    · rw [hnew, hsize, hempty]
      rfl
    · rw [hold i (hcases i hi hne)]
      exact h.size i (hcases i hi hne)
  · intro i hi t
    rcases eq_or_ne i s.freeinode with rfl | hne
    · rw [hslot₀, hempty]
      simp
    · rw [hslot i (hcases i hi hne)]
      exact h.slots i (hcases i hi hne) t
  · intro i hi k
    rcases eq_or_ne i s.freeinode with rfl | hne
    · rw [byte_of_zero hslot₀, hempty]
      rfl
    · have hi' := hcases i hi hne
      rw [byte_congr (by rw [hold i hi']) (hdisk i hi')]
      exact h.byte i hi' k
  · intro i j t u hi hj ht htu
    rcases eq_or_ne i s.freeinode with rfl | hne
    · exact absurd (hslot₀ t) ht
    rcases eq_or_ne j s.freeinode with rfl | hne'
    · rw [htu] at ht
      exact absurd (hslot₀ u) ht
    rw [hslot i (hcases i hi hne)] at ht htu
    rw [hslot j (hcases j hj hne')] at htu
    exact h.distinct i j t u (hcases i hi hne) (hcases j hj hne') ht htu
  · intro i b hi hb
    rw [hblock]
    rcases eq_or_ne i s.freeinode with rfl | hne
    · obtain ⟨hpos, t, ht⟩ := hb
      exact absurd ((hslot₀ t).symm.trans ht).symm hpos
    · rw [Owns, hslot i (hcases i hi hne)] at hb
      exact h.owned i b (hcases i hi hne) hb
  · intro b hlow hlt
    rw [hblock] at hlt
    obtain ⟨i, hi, hb⟩ := h.taken b hlow hlt
    refine ⟨i, hused i hi, ?_⟩
    rwa [Owns, hslot i hi]
  · rw [hblock, hfree, Finset.sum_range_succ, hempty]
    exact h.count

theorem ialloc_spec (h : Inv s content) (hroom : s.freeinode < NINODES) (type : BitVec 16)
    (htype : type ≠ 0) :
    ∃ s', ialloc s type = .ok (s.freeinode, s') ∧ s'.freeinode = s.freeinode + 1 ∧
      Inv s' content := by
  have hinv := inv_ialloc (d := { Dinode.zero with type := type, nlink := 1 }) h hroom htype rfl rfl
  refine ⟨_, ?_, rfl, hinv⟩
  simp only [ialloc, winode_ok h.length hroom, bind, Except.bind]
  rfl

/-! ### Appending to a file -/

/-- The loop of `iappend` on file `i` starts here. -/
def State.cursor (s : State) (i : Nat) : Cursor := ⟨s.image, s.freeblock, inodeAt s.image.sector i⟩

variable {i : Nat}

theorem Inv.cursor_ok (h : Inv s content) (hi : s.Used i) : (s.cursor i).Ok where
  length := h.length
  low := h.low
  blank := h.blank
  distinct := h.distinct_slot hi
  owned := fun b => h.owned i b hi

section Append

variable {p : List UInt8} {c : Cursor} {s' : State} {d : Dinode} {j : Nat} (h : Inv s content)
  (hi : s.Used i)
  (hadv : Cursor.Advances (Slot.Touches (content i).length p.length) (s.cursor i) c)

include h hi hadv in
/-- The loop takes no block of another file. -/
theorem not_owns_other (hj : s.Used j) (hji : j ≠ i) {b : Nat} (hb : (s.view j).Owns b) :
    ¬ c.view.Owns b := by
  intro hown
  rcases hadv.edit.owns_or_fresh hown with hold | hfresh
  · exact h.not_owns hj hi hji hb hold
  · have hge : s.freeblock ≤ b := hfresh
    exact absurd (h.owned j b hj hb).2 (by omega)

include hadv in
/-- The loop writes nothing but blocks of its file. -/
theorem sector_of_lt {b : Nat} (hb : b < nmeta) : c.image.sector b = s.image.sector b :=
  hadv.edit.frame b fun hown => absurd (hadv.ok.owned b hown).1 (by omega)

variable (hsector : s'.image.sector = setInode c.image.sector i d)

include h hi hadv hsector

/-- Another file stays as it is. -/
theorem view_other (hj : s.Used j) (hji : j ≠ i) : (s'.view j).dinode = (s.view j).dinode ∧
      (s'.view j).slot = (s.view j).slot ∧ ∀ k, (s'.view j).byte k = (s.view j).byte k := by
  have hmeta : nmeta = sb.bmapstart + 1 := rfl
  have hjblock := iblock_lt (h.lt_ninodes hj)
  have hsame : (s'.view j).dinode = (s.view j).dinode := by
    show inodeAt s'.image.sector j = inodeAt s.image.sector j
    rw [hsector, inodeAt_setInode_other hji]
    unfold inodeAt
    rw [sector_of_lt hadv (by omega)]
  have hdisk : ∀ b, (s.view j).Owns b → (s'.view j).disk b = (s.view j).disk b := by
    intro b hb
    show s'.image.sector b = s.image.sector b
    rw [hsector, setInode_of_ne (h.ne_iblock hj (h.lt_ninodes hi) hb)]
    exact hadv.edit.frame b (not_owns_other h hi hadv hj hji hb)
  exact ⟨hsame, slot_congr (by rw [hsame]) fun hne => hdisk _ (.intro hne),
    byte_congr (by rw [hsame]) hdisk⟩

/-- The file is what the loop has left. -/
theorem view_self (haddrs : d.addrs = c.din.addrs) : (s'.view i).dinode = d ∧
      (s'.view i).slot = c.view.slot ∧ ∀ k, (s'.view i).byte k = c.view.byte k := by
  have hmeta : nmeta = sb.bmapstart + 1 := rfl
  have hiblock := iblock_lt (h.lt_ninodes hi)
  have hself : (s'.view i).dinode = d := by
    show inodeAt s'.image.sector i = d
    rw [hsector, inodeAt_setInode_self]
  have hsame : (s'.view i).dinode.addrs = c.view.dinode.addrs := by
    rw [hself]
    exact haddrs
  have hdisk : ∀ b, c.view.Owns b → (s'.view i).disk b = c.view.disk b := by
    intro b hb
    have := (hadv.ok.owned b hb).1
    show s'.image.sector b = c.image.sector b
    rw [hsector, setInode_of_ne (by omega)]
  exact ⟨hself, slot_congr hsame fun hne => hdisk _ (.intro hne), byte_congr hsame hdisk⟩

end Append

/-- The state after the loop of `iappend` on file `i` ended and the inode was written. -/
theorem inv_iappend (h : Inv s content) (hi : s.Used i) {p : List UInt8} {c : Cursor}
    (hadv : Cursor.Advances (Slot.Touches (content i).length p.length) (s.cursor i) c)
    (happ : Appended (content i).length p (s.view i) c.view) (hhigh : c.freeblock ≤ FSSIZE)
    (hcount : c.freeblock + blocksFor (content i).length =
      s.freeblock + blocksFor ((content i).length + p.length))
    (hmax : p = [] ∨ (content i).length + p.length ≤ MAXFILE * BSIZE) :
    Inv ⟨⟨setInode c.image.sector i
        { c.din with size := BitVec.ofNat 32 ((content i).length + p.length) }, FSSIZE⟩,
      s.freeinode, c.freeblock⟩ (update content i (content i ++ p)) := by
  obtain ⟨d, hd⟩ : ∃ d : Dinode, d =
    { c.din with size := BitVec.ofNat 32 ((content i).length + p.length) } := ⟨_, rfl⟩
  obtain ⟨s', hs'⟩ : ∃ s' : State, s' =
    ⟨⟨setInode c.image.sector i d, FSSIZE⟩, s.freeinode, c.freeblock⟩ := ⟨_, rfl⟩
  rw [← hd, ← hs']
  have hin := h.lt_ninodes hi
  have hmeta : nmeta = sb.bmapstart + 1 := rfl
  have hiblock := iblock_lt hin
  have hsector : s'.image.sector = setInode c.image.sector i d := by rw [hs']
  have hfree : s'.freeinode = s.freeinode := by rw [hs']
  have hblock : s'.freeblock = c.freeblock := by rw [hs']
  have hused : ∀ j, s'.Used j ↔ s.Used j := fun j => by rw [State.Used, State.Used, hfree]
  have hle : s.freeblock ≤ c.freeblock := hadv.le
  have hview := fun j => view_other (j := j) h hi hadv hsector
  have hother := fun j b => not_owns_other (j := j) (b := b) h hi hadv
  obtain ⟨hself, hslotSelf, hbyteSelf⟩ := view_self h hi hadv hsector (by rw [hd])
  have hlen : (content i ++ p).length = (content i).length + p.length := length_append
  have hbound : (content i).length + p.length ≤ MAXFILE * BSIZE := by
    rcases hmax with rfl | hmax
    · exact h.bounded i
    · exact hmax
  constructor
  · rw [hs']
  · rw [hsector, setInode_of_ne (by show 1 ≠ i / 16 + 32; omega), sector_of_lt hadv (by decide)]
    exact h.super
  · rw [hfree]
    exact h.first
  · rw [hfree]
    exact h.inodes
  · rw [hblock]
    exact hadv.ok.low
  · rwa [hblock]
  · intro b hb
    rw [hblock] at hb
    have := hadv.ok.low
    rw [hsector, setInode_of_ne (by omega)]
    exact hadv.ok.blank b hb
  · intro j hj
    rw [hused] at hj
    rw [update_of_ne (fun heq => hj (by rwa [heq]))]
    exact h.unused j hj
  · intro j
    rcases eq_or_ne j i with rfl | hji
    · rwa [update_self, hlen]
    · rw [update_of_ne hji]
      exact h.bounded j
  · intro j hj
    rw [hused] at hj
    rcases eq_or_ne j i with rfl | hji
    · obtain ⟨addrs, haddr⟩ := hadv.edit.dinode
      have htype : c.din.type = (s.view j).dinode.type := by
        rw [show c.din = c.view.dinode from rfl, haddr]
        rfl
      rw [hself, hd]
      rw [htype]
      exact h.type j hj
    · rw [(hview j hj hji).1]
      exact h.type j hj
  · intro j hj
    rw [hused] at hj
    rcases eq_or_ne j i with rfl | hji
    · have hlt : (content j).length + p.length < 2 ^ 32 := lt_of_le_of_lt hbound (by decide)
      rw [hself, hd, update_self, hlen]
      exact Nat.mod_eq_of_lt hlt
    · rw [(hview j hj hji).1, update_of_ne hji]
      exact h.size j hj
  · intro j hj t
    rw [hused] at hj
    rcases eq_or_ne j i with rfl | hji
    · rw [hslotSelf, hadv.edit.used, update_self, hlen, Slot.start_lt_add]
      show (s.view j).slot t ≠ 0 ∨ _ ↔ _
      rw [h.slots j hj]
    · rw [(hview j hj hji).2.1, update_of_ne hji]
      exact h.slots j hj t
  · intro j hj k
    rw [hused] at hj
    rcases eq_or_ne j i with rfl | hji
    · rw [hbyteSelf, happ, h.byte j hj, update_self]
      simp only [getD_eq_getElem?_getD]
      split
      next hin => rw [getElem?_append_right hin.1]
      next hout =>
        by_cases hk : k < (content j).length
        · rw [getElem?_append_left hk]
        · rw [getElem?_eq_none (by omega), getElem?_eq_none (by omega)]
    · rw [(hview j hj hji).2.2, update_of_ne hji]
      exact h.byte j hj k
  · intro j l t u hj hl ht htu
    rw [hused] at hj hl
    rcases eq_or_ne j i with rfl | hji
    · rw [hslotSelf] at ht htu
      rcases eq_or_ne l j with rfl | hlj
      · rw [hslotSelf] at htu
        exact ⟨rfl, hadv.edit.distinct t u ht htu⟩
      · rw [(hview l hl hlj).2.1] at htu
        exact absurd ⟨ht, t, rfl⟩ (hother l _ hl hlj ⟨ht, u, htu.symm⟩)
    · rw [(hview j hj hji).2.1] at ht htu
      rcases eq_or_ne l i with rfl | hli
      · rw [hslotSelf] at htu
        exact absurd ⟨ht, u, htu.symm⟩ (hother j _ hj hji ⟨ht, t, rfl⟩)
      · rw [(hview l hl hli).2.1] at htu
        exact h.distinct j l t u hj hl ht htu
  · intro j b hj hb
    rw [hused] at hj
    rw [hblock]
    rcases eq_or_ne j i with rfl | hji
    · rw [Owns, hslotSelf] at hb
      exact hadv.ok.owned b hb
    · rw [Owns, (hview j hj hji).2.1] at hb
      have := h.owned j b hj hb
      omega
  · intro b hb hlt
    rw [hblock] at hlt
    by_cases hold : b < s.freeblock
    · obtain ⟨j, hj, hown⟩ := h.taken b hb hold
      refine ⟨j, (hused j).mpr hj, ?_⟩
      rcases eq_or_ne j i with rfl | hji
      · rw [Owns, hslotSelf]
        exact hadv.edit.owns hown
      · rwa [Owns, (hview j hj hji).2.1]
    · refine ⟨i, (hused i).mpr hi, ?_⟩
      rw [Owns, hslotSelf]
      exact hadv.taken b (by show s.freeblock ≤ b; omega) hlt
  · have hold := h.count
    have hsum := Interleave.sum_change_of_mem (fun j => blocksFor (content j).length)
      (fun j => blocksFor (update content i (content i ++ p) j).length)
      (Finset.mem_range.mpr hi.2) fun j hj => by rw [update_of_ne hj]
    rw [update_self, hlen] at hsum
    rw [hblock, hfree]
    omega

/-- `iappend` appends to one file, or the file would be too large or there are not enough blocks. -/
theorem iappend_spec (h : Inv s content) (hi : s.Used i) (p : List UInt8) :
    (∃ s', iappend s i p = .ok s' ∧ s'.freeinode = s.freeinode ∧
      Inv s' (update content i (content i ++ p))) ∨
    ((∃ e, iappend s i p = .error e) ∧ (MAXFILE * BSIZE < (content i).length + p.length ∨
        FSSIZE + blocksFor (content i).length <
          s.freeblock + blocksFor ((content i).length + p.length))) := by
  have hin := h.lt_ninodes hi
  have hsize : (inodeAt s.image.sector i).size.toNat = (content i).length := h.size i hi
  rcases iappendFrom_spec (le_refl p.length) (h.cursor_ok hi) h.high (h.slots i hi) with
    ⟨c, hloop, hadv, happ, hhigh, hcount, hmax⟩ | ⟨⟨e, hloop⟩, hbad⟩
  · left
    refine ⟨_, ?_, ?_, inv_iappend h hi hadv happ hhigh hcount hmax⟩
    · simp only [iappend, rinode_ok h.length hin, bind, Except.bind, hsize]
      rw [show iappendFrom p.length ⟨s.image, s.freeblock, inodeAt s.image.sector i⟩
        (content i).length p = _ from hloop]
      simp only [winode_ok hadv.ok.length hin]
      rfl
    · rfl
  · right
    refine ⟨⟨e, ?_⟩, hbad⟩
    simp only [iappend, rinode_ok h.length hin, bind, Except.bind, hsize]
    rw [show iappendFrom p.length ⟨s.image, s.freeblock, inodeAt s.image.sector i⟩
      (content i).length p = _ from hloop]

end Xv6.Mkfs
