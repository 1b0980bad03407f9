import Xv6.Vm.Growproc

/-!
# Address spaces

The page table of a process with all that is in it: the pages of user memory from address 0 on, and
above them at most the trampoline and the trap frame, which user code cannot access.
-/

namespace Xv6.Vm

open Interleave Bytes Radix LocalSpec

variable {K : Kernel} {root : Addr} {allowed : String → Prop} {h h' : Heap} {pages : Nat}

/-- An image whose entries above user memory are leaves without user access. -/
structure UserSpace (K : Kernel) (h : Heap) (root : Addr) (pages : Nat) : Prop extends
    Image K h root pages where
  trap : ∀ n w, USERPAGES ≤ n → lookup h root n = some w → PTE_FLAGS w ≠ PTE_V ∧ w &&& PTE_U = 0

namespace UserSpace

section

variable (hspace : UserSpace K h root pages)
include hspace

theorem pages_lt : pages < USERPAGES := by
  have hlimit : 32768 < USERPAGES := by decide
  exact lt_of_le_of_lt hspace.pages_le hlimit

theorem frame {a : Addr} (ha : Frames h root 0 pages a) :
    Freeable K a ∧ ¬ Table h root a ∧ h a ≠ none := by
  obtain ⟨n, w, _, hn, hw, rfl⟩ := ha
  obtain ⟨w', page, huser⟩ := hspace.mapped n hn
  obtain rfl : w = w' := Option.some.inj (hw.symm.trans huser.lookup)
  exact ⟨huser.freeable, huser.apart, by simp [huser.page]⟩

/-- An address space depends only on its tables and its pages, and not on what is in the pages. -/
theorem congr (htables : ∀ a, Table h root a → h' a = h a)
    (hframes : ∀ a, Frames h root 0 pages a → h' a ≠ none) : UserSpace K h' root pages := by
  have hlookup : ∀ n, Vm.lookup h' root n = Vm.lookup h root n := lookup_of_agree htables
  refine ⟨⟨hspace.tree.of_agree htables, hspace.proper.of_agree htables, ?_, ?_, ?_⟩, ?_⟩
  · intro n hn
    obtain ⟨w, page, huser⟩ := hspace.mapped n hn
    obtain ⟨page', hpage'⟩ := Option.ne_none_iff_exists'.mp
      (hframes (PTE2PA w) ⟨n, w, Nat.zero_le n, hn, huser.lookup, rfl⟩)
    have hapart : ¬ Table h' root (PTE2PA w) := mt (table_of_agree htables _).mp huser.apart
    exact ⟨w, page', (hlookup n).trans huser.lookup, huser.leaf, huser.freeable, hapart, hpage'⟩
  · intro n hn hn'
    rw [hlookup]
    exact hspace.unmapped n hn hn'
  · intro n m w w' hn hm hw hw' heq
    rw [hlookup] at hw hw'
    exact hspace.distinct n m w w' hn hm hw hw' heq
  · intro n w hn hw
    rw [hlookup] at hw
    exact hspace.trap n w hn hw

theorem mono (hsub : h.Sub h') : UserSpace K h' root pages := by
  refine hspace.congr (agree_of_sub hspace.tree hsub) ?_
  intro a ha
  obtain ⟨page, hpage⟩ := Option.ne_none_iff_exists'.mp (hspace.frame ha).2.2
  rw [hsub a page hpage]
  simp

theorem store {a : Addr} (ha : Frames h root 0 pages a)
    (page : Page) : UserSpace K (h.set a page) root pages := by
  have hapart := (hspace.frame ha).2.1
  refine hspace.congr ?_ ?_
  · intro b hb
    refine Heap.set_of_ne ?_
    rintro rfl
    exact hapart hb
  · intro b hb
    rcases eq_or_ne b a with rfl | hne
    · rw [Heap.set_self]
      simp
    · rw [Heap.set_of_ne hne]
      exact (hspace.frame hb).2.2

theorem extend {flags : Nat → Pte} {content : Nat → Page} {pages' : Nat} (hle : pages ≤ pages')
    (hext : Extended K root flags content pages pages' h h') : UserSpace K h' root pages' := by
  have himage : Image K h' root pages' := hspace.toImage.extend hle hext
  refine ⟨himage, ?_⟩
  intro n w hn hw
  have hlimit : 32768 < USERPAGES := by decide
  have hmost := himage.pages_le
  rw [hext.lookup n (by omega)] at hw
  exact hspace.trap n w hn hw

theorem same (hsame : SameMap K root h h') : UserSpace K h' root pages := by
  refine ⟨hspace.toImage.same hsame, ?_⟩
  intro n w hn hw
  rw [hsame.lookup] at hw
  exact hspace.trap n w hn hw

theorem shrink {pages' : Nat} (hle : pages' ≤ pages)
    (hshrunk : Shrunk K root pages' pages h h') : UserSpace K h' root pages' := by
  refine ⟨hspace.toImage.shrink hle hshrunk, ?_⟩
  intro n w hn hw
  have hmost := hspace.pages_lt
  rw [hshrunk.lookup, if_neg (by omega)] at hw
  exact hspace.trap n w hn hw

end

end UserSpace

theorem Grew.space {p p' : Proc} {sz r : Int} (hspace : UserSpace K h p.pagetable (pagesOf p.sz))
    (hgrew : Grew K p sz h (r, p') h') : UserSpace K h' p'.pagetable (pagesOf p'.sz) := by
  cases hgrew with
  | more hnew hle hzeroed => exact hspace.extend (pagesOf_mono (by dsimp only; omega)) hzeroed
  | less hnew hle hshrunk => exact hspace.shrink (pagesOf_mono (by dsimp only; omega)) hshrunk
  | failed _ hsame => exact hspace.same hsame
  | ignored _ => exact hspace

end Xv6.Vm
