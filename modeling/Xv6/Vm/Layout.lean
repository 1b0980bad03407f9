import Xv6.Bytes.Buffer
import Mathlib.Data.Nat.Bitwise

/-!
# Addresses, pages and page-table entries

The constants and macros of `kernel/riscv.h` and `kernel/memlayout.h`. An address below `MAXVA` is a
page number and an offset; `index` splits a page number into the three indices that `PX` extracts,
and `eq_of_index` says that they determine it. A page-table entry is a page address above ten flag
bits.
-/

namespace Xv6.Vm

open Bytes BitVec

/-- A virtual or physical address (`uint64`). -/
abbrev Addr := BitVec 64

/-- A page-table entry (`pte_t`). -/
abbrev Pte := BitVec 64

/-! ### Macros -/

/-- Bytes per page. -/
def PGSIZE : Nat := 4096

def PGROUNDUP (sz : Addr) : Addr := (sz + 4096#64 - 1#64) &&& ~~~(4096#64 - 1#64)

def PGROUNDDOWN (a : Addr) : Addr := a &&& ~~~(4096#64 - 1#64)

/-- The entry is valid. -/
def PTE_V : Pte := 1#64 <<< 0
def PTE_R : Pte := 1#64 <<< 1
def PTE_W : Pte := 1#64 <<< 2
def PTE_X : Pte := 1#64 <<< 3
/-- User code can access the page. -/
def PTE_U : Pte := 1#64 <<< 4

/-- Shift a physical address to the right place for an entry. -/
def PA2PTE (pa : Addr) : Pte := (pa >>> 12) <<< 10

def PTE2PA (pte : Pte) : Addr := (pte >>> 10) <<< 12

def PTE_FLAGS (pte : Pte) : Pte := pte &&& 0x3FF#64

theorem and_mask_lt (a : Addr) : (a &&& 0x1FF#64).toNat < 512 := by
  have hle : a.toNat &&& 511 ≤ 511 := Nat.and_le_right
  exact Nat.lt_succ_of_le hle

/-- The index of a virtual address at a level of the page table. -/
def PX (level : Nat) (va : Addr) : Fin 512 :=
  ⟨((va >>> (12 + 9 * level)) &&& 0x1FF#64).toNat, and_mask_lt _⟩

/-- One beyond the highest virtual address. -/
def MAXVA : Addr := 1#64 <<< (9 + 9 + 9 + 12 - 1)

/-- Where the trampoline page is mapped. -/
def TRAMPOLINE : Addr := MAXVA - 4096#64

/-- Where a process's trap frame is mapped. -/
def TRAPFRAME : Addr := TRAMPOLINE - 4096#64

/-- Where the kernel is loaded. -/
def KERNBASE : Addr := 0x80000000#64

/-- The end of the memory that the kernel uses. -/
def PHYSTOP : Addr := KERNBASE + 128#64 * 1024#64 * 1024#64

/-- Where the kernel is in memory: the first address after it, and the trampoline page in it. -/
structure Kernel where
  /-- `end`. -/
  kend : Addr
  trampoline : Addr
  loaded : KERNBASE ≤ kend
  inside : trampoline < kend

/-- `pa` is a page that `kfree` accepts. -/
def Freeable (K : Kernel) (pa : Addr) : Prop := pa.toNat % PGSIZE = 0 ∧ K.kend ≤ pa ∧ pa < PHYSTOP

instance (K : Kernel) (pa : Addr) : Decidable (Freeable K pa) := by
  unfold Freeable
  infer_instance

theorem Freeable.ne_zero {K : Kernel} {pa : Addr} (h : Freeable K pa) : pa ≠ 0 := by
  rintro rfl
  have hle : K.kend.toNat ≤ 0 := h.2.1
  have hbase : 0x80000000 ≤ K.kend.toNat := K.loaded
  omega

/-! ### Pages of memory -/

/-- The contents of a page. -/
abbrev Page := Buffer PGSIZE

/-- A page in which every byte is `c`. -/
def Page.fill (c : UInt8) : Page := fun _ => c

/-- Entry `i` of a page-table page. -/
def Page.pte (page : Page) (i : Fin 512) : Pte := BitVec.ofNat 64 (page.readLE 8 (8 * i))

/-- Change entry `i` of a page-table page. -/
def Page.setPte (page : Page) (i : Fin 512) (pte : Pte) : Page := page.writeLE 8 (8 * i) pte.toNat

theorem Page.fill_zero : Page.fill 0 = Buffer.zeros := rfl

@[simp] theorem Page.pte_zeros (i : Fin 512) : Page.pte Buffer.zeros i = 0 := by
  rw [Page.pte, Buffer.readLE_zeros]
  rfl

theorem Page.pte_setPte (page : Page) (i j : Fin 512) (pte : Pte) :
    (page.setPte i pte).pte j = if j = i then pte else page.pte j := by
  unfold Page.setPte Page.pte
  split
  · next heq =>
    subst heq
    have hfits : 8 * j.val + 8 ≤ PGSIZE := by
      have hsize : PGSIZE = 4096 := rfl
      omega
    have hword : pte.toNat % 256 ^ 8 = pte.toNat := Nat.mod_eq_of_lt pte.isLt
    rw [Buffer.readLE_writeLE_same _ _ hfits, hword, ofNat_toNat]
    exact setWidth_eq pte
  · next hne => rw [Buffer.readLE_writeLE_other _ _ (by omega)]

/-! ### Page numbers -/

/-- The address of page `n`. -/
def pageAt (n : Nat) : Addr := BitVec.ofNat 64 (n * PGSIZE)

/-- The number of the page of an address. -/
def pageOf (a : Addr) : Nat := a.toNat / PGSIZE

/-- The number of pages below `MAXVA`. -/
def NPAGES : Nat := 2 ^ 26

theorem npages_eq : NPAGES = 67108864 := rfl

theorem toNat_pageAt {n : Nat} (h : n < 2 ^ 52) : (pageAt n).toNat = n * PGSIZE := by
  have hsize : PGSIZE = 4096 := rfl
  rw [pageAt, toNat_ofNat, hsize]
  exact Nat.mod_eq_of_lt (by omega)

theorem pageOf_pageAt {n : Nat} (h : n < 2 ^ 52) : pageOf (pageAt n) = n := by
  rw [pageOf, toNat_pageAt h]
  exact Nat.mul_div_cancel n (by decide)

theorem pageOf_lt (a : Addr) : pageOf a < 2 ^ 52 := by
  unfold pageOf PGSIZE
  omega

theorem pageAt_inj {n m : Nat} (hn : n < 2 ^ 52) (hm : m < 2 ^ 52) :
    pageAt n = pageAt m ↔ n = m := by
  constructor
  · intro heq
    rw [← pageOf_pageAt hn, heq, pageOf_pageAt hm]
  · rintro rfl
    rfl

theorem pageAt_succ (n : Nat) : pageAt n + 4096#64 = pageAt (n + 1) := by
  rw [pageAt, pageAt, Nat.add_mul, ofNat_add]
  rfl

theorem getLsbD_roundMask :
    ∀ i : Fin 64, (~~~(4096#64 - 1#64)).getLsbD i = decide (¬ i.val < 12) := by decide

theorem toNat_roundDown (a : Addr) : (PGROUNDDOWN a).toNat = a.toNat / 4096 * 4096 := by
  have hshift : PGROUNDDOWN a = (a >>> 12) <<< 12 := by
    apply eq_of_getLsbD_eq
    intro i hi
    have hmask : (~~~(4096#64 - 1#64)).getLsbD i = decide (¬ i < 12) := getLsbD_roundMask ⟨i, hi⟩
    rw [PGROUNDDOWN, getLsbD_and, hmask, getLsbD_shiftLeft, getLsbD_ushiftRight]
    by_cases hlow : i < 12
    · simp [hlow]
    · rw [show 12 + (i - 12) = i by omega]
      simp [hlow, hi]
  rw [hshift, toNat_shiftLeft, toNat_ushiftRight, Nat.shiftRight_eq_div_pow, Nat.shiftLeft_eq]
  exact Nat.mod_eq_of_lt (by omega)

theorem roundDown_eq (a : Addr) : PGROUNDDOWN a = pageAt (pageOf a) := by
  apply eq_of_toNat_eq
  rw [toNat_roundDown, toNat_pageAt (pageOf_lt a)]
  rfl

theorem toNat_roundUp {a : Addr} (h : a.toNat + 4095 < 2 ^ 64) :
    (PGROUNDUP a).toNat = (a.toNat + 4095) / 4096 * 4096 := by
  have hsum : (a + 4096#64 - 1#64).toNat = a.toNat + 4095 := by
    rw [toNat_sub, toNat_add]
    simp only [toNat_ofNat]
    omega
  rw [← hsum]
  exact toNat_roundDown _

theorem roundUp_eq {a : Addr} (h : a.toNat + 4095 < 2 ^ 64) :
    PGROUNDUP a = pageAt ((a.toNat + 4095) / 4096) := by
  apply eq_of_toNat_eq
  rw [toNat_roundUp h, toNat_pageAt (by omega)]
  rfl

/-- The index at a level of page `n`. -/
def index (level n : Nat) : Fin 512 := ⟨n / 512 ^ level % 512, Nat.mod_lt _ (by decide)⟩

theorem px_eq (level : Nat) (va : Addr) : PX level va = index level (pageOf va) := by
  apply Fin.ext
  show ((va >>> (12 + 9 * level)) &&& 0x1FF#64).toNat = va.toNat / PGSIZE / 512 ^ level % 512
  have hmask : (0x1FF#64).toNat = 2 ^ 9 - 1 := rfl
  rw [toNat_and, hmask, Nat.and_two_pow_sub_one_eq_mod, toNat_ushiftRight,
    Nat.shiftRight_eq_div_pow, pow_add, pow_mul, ← Nat.div_div_eq_div_mul]
  rfl

theorem eq_of_index {n m : Nat} (hn : n < NPAGES) (hm : m < NPAGES) (h₂ : index 2 n = index 2 m)
    (h₁ : index 1 n = index 1 m) (h₀ : index 0 n = index 0 m) : n = m := by
  have h₂ : n / 512 ^ 2 % 512 = m / 512 ^ 2 % 512 := congrArg Fin.val h₂
  have h₁ : n / 512 ^ 1 % 512 = m / 512 ^ 1 % 512 := congrArg Fin.val h₁
  have h₀ : n / 512 ^ 0 % 512 = m / 512 ^ 0 % 512 := congrArg Fin.val h₀
  have hpages := npages_eq
  omega

theorem lt_maxva {va : Addr} : va < MAXVA ↔ pageOf va < NPAGES := by
  have hmax : MAXVA.toNat = NPAGES * PGSIZE := rfl
  rw [lt_def, hmax, pageOf, Nat.div_lt_iff_lt_mul (by decide)]

/-! ### Entries -/

theorem and_valid {pte : Pte} : pte &&& PTE_V ≠ 0 ↔ pte.toNat % 2 = 1 := by
  have hvalid : PTE_V.toNat = 2 ^ 1 - 1 := rfl
  rw [ne_eq, ← toNat_inj, toNat_and, hvalid, Nat.and_two_pow_sub_one_eq_mod]
  show ¬ pte.toNat % 2 ^ 1 = 0 ↔ _
  omega

theorem toNat_pa2pte (pa : Addr) : (PA2PTE pa).toNat = pa.toNat / 4096 * 1024 := by
  rw [PA2PTE, toNat_shiftLeft, toNat_ushiftRight, Nat.shiftRight_eq_div_pow, Nat.shiftLeft_eq]
  exact Nat.mod_eq_of_lt (by omega)

theorem toNat_flags (pte : Pte) : (PTE_FLAGS pte).toNat = pte.toNat % 1024 := by
  have hmask : (0x3FF#64).toNat = 2 ^ 10 - 1 := rfl
  rw [PTE_FLAGS, toNat_and, hmask, Nat.and_two_pow_sub_one_eq_mod]

variable {flags : Pte}

theorem toNat_pa2pte_or (pa : Addr) (h : flags.toNat < 1024) :
    (PA2PTE pa ||| flags).toNat = pa.toNat / 4096 * 1024 + flags.toNat := by
  rw [toNat_or, toNat_pa2pte, mul_comm]
  exact (Nat.two_pow_add_eq_or_of_lt (i := 10) h _).symm

theorem toNat_pte2pa {pte : Pte} {k f : Nat} (hpte : pte.toNat = k * 1024 + f) (hf : f < 1024)
    (hk : k < 2 ^ 52) : (PTE2PA pte).toNat = k * 4096 := by
  have hdiv : pte.toNat / 2 ^ 10 = k := by omega
  rw [PTE2PA, toNat_shiftLeft, toNat_ushiftRight, Nat.shiftRight_eq_div_pow, Nat.shiftLeft_eq, hdiv]
  exact Nat.mod_eq_of_lt (by omega)

/-- The entry that `mappages` makes has the address of its page. -/
theorem pte2pa_or (pa : Addr) (h : flags.toNat < 1024) :
    PTE2PA (PA2PTE pa ||| flags) = PGROUNDDOWN pa := by
  apply eq_of_toNat_eq
  rw [toNat_pte2pa (toNat_pa2pte_or pa h) h (by omega), toNat_roundDown]

theorem flags_or (pa : Addr) (h : flags.toNat < 1024) :
    PTE_FLAGS (PA2PTE pa ||| flags) = flags := by
  apply eq_of_toNat_eq
  rw [toNat_flags, toNat_pa2pte_or pa h]
  omega

theorem flags_lt (pte : Pte) : (PTE_FLAGS pte).toNat < 1024 := by
  rw [toNat_flags]
  omega

theorem or_valid_lt (h : flags.toNat < 1024) : (flags ||| PTE_V).toNat < 1024 := by
  exact Nat.or_lt_two_pow (n := 10) h (by decide)

theorem valid_or (pte : Pte) : (pte ||| PTE_V) &&& PTE_V ≠ 0 := by
  rw [and_valid, toNat_or]
  have hbit : (pte.toNat ||| PTE_V.toNat).testBit 0 = true := by
    rw [Nat.testBit_or, show PTE_V.toNat = 1 from rfl]
    simp
  simpa [Nat.testBit_zero] using hbit

theorem roundDown_of_aligned {pa : Addr} (h : pa.toNat % PGSIZE = 0) : PGROUNDDOWN pa = pa := by
  have hsize : PGSIZE = 4096 := rfl
  rw [hsize] at h
  apply eq_of_toNat_eq
  rw [toNat_roundDown]
  omega

end Xv6.Vm
