import Xv6.Files.Invariant
import Mathlib.Algebra.BigOperators.Fin

/-!
# How the ledgers change

One lemma for each way in which an operation changes a table, with what the process then has in its
hands. Each lemma speaks about one part of the invariant only.
-/

namespace Xv6.Files

open Interleave Function Finset

variable {n : Nat} {r : Proc} {proc : Fin n → Proc} {file : FilePtr → File} {m : Memory n}
  {ref : InodePtr → Int} {g : Fin n → Own n} {p q : Fin n} {own : Own n} {f : FilePtr}

/-! ### Slots -/

theorem tally_slots_setFd (proc : Fin n → Proc) (q : Fin n) (fd : Fd) (v : Option FilePtr)
    (f : FilePtr) :
    (tally (slots (update proc q ((proc q).setFd fd v))) f : Int) =
      tally (slots proc) f + held v f - held ((proc q).ofile fd) f := by
  have hslots : slots (update proc q ((proc q).setFd fd v)) = update (slots proc) (q, fd) v := by
    funext ⟨q', fd'⟩
    rcases eq_or_ne q' q with rfl | hq
    · rcases eq_or_ne fd' fd with rfl | hfd
      · simp [slots, Proc.setFd]
      · have hne : (q', fd') ≠ (q', fd) := fun heq => hfd (Prod.ext_iff.mp heq).2
        simp [slots, Proc.setFd, hfd, hne]
    · have hne : (q', fd') ≠ (q, fd) := fun heq => hq (Prod.ext_iff.mp heq).1
      simp [slots, hq, hne]
  rw [hslots, tally_update]
  rfl

theorem tally_ofile_setFd (r : Proc) (fd : Fd) (v : Option FilePtr) (f : FilePtr) :
    (tally (r.setFd fd v).ofile f : Int) = tally r.ofile f + held v f - held (r.ofile fd) f :=
  tally_update r.ofile fd v f

variable {proc' : Fin n → Proc}

theorem slots_congr (h : ∀ q, (proc' q).ofile = (proc q).ofile) : slots proc' = slots proc := by
  funext ⟨q, fd⟩
  exact congrFun (h q) fd

/-! ### The process table -/

namespace ProcsOk

section

variable (h : ProcsOk proc g)
include h

/-- A process changes an entry: whoever knows about it afterwards knows what it is. -/
theorem change (hown : ∀ p' c, (update g p own p').proc = some c →
      (p' = q ∧ c = r ∧ r.life = .alive) ∨ (p' ≠ q ∧ (g p').proc = some c))
    (hchild : ∀ p' q' c, (update g p own p').child = some (q', c) →
      (p' = p ∧ q' = q ∧ c = r ∧ r.life = .embryo) ∨ (q' ≠ q ∧ (g p').child = some (q', c)))
    (hempty : r.life = .unused ∨ r.life = .zombie → r.ofile = (fun _ => none) ∧ r.cwd = none) :
    ProcsOk (update proc q r) (update g p own) := by
  constructor
  · intro p' c hc
    rcases hown p' c hc with ⟨rfl, rfl, hlife⟩ | ⟨hne, hc'⟩
    · exact ⟨update_self .., hlife⟩
    · rw [update_of_ne hne]
      exact h.own p' c hc'
  · intro p' q' c hc
    rcases hchild p' q' c hc with ⟨-, rfl, rfl, hlife⟩ | ⟨hne, hc'⟩
    · exact ⟨update_self .., hlife⟩
    · rw [update_of_ne hne]
      exact h.child p' q' c hc'
  · intro p' p'' q' c c' hc hc'
    rcases hchild p' q' c hc, hchild p'' q' c' hc' with
      ⟨⟨rfl, hq, -⟩ | ⟨hne, hold⟩, ⟨rfl, hq', -⟩ | ⟨hne', hold'⟩⟩
    · rfl
    · exact absurd hq hne'
    · exact absurd hq' hne
    · exact h.child_inj p' p'' q' c c' hold hold'
  · intro q'
    rcases eq_or_ne q' q with rfl | hq
    · rwa [update_self]
    · rw [update_of_ne hq]
      exact h.empty q'

/-- Nobody else knows about an entry that a process is about to change. -/
theorem setOther (hlife : (proc q).life ≠ .alive)
    (hproc : own.proc = (g p).proc) (hothers : ∀ p' c, p' ≠ p → (g p').child ≠ some (q, c))
    (hchild : ∀ q' c, own.child = some (q', c) → q' = q ∧ c = r ∧ r.life = .embryo)
    (hempty : r.life = .unused ∨ r.life = .zombie → r.ofile = (fun _ => none) ∧ r.cwd = none) :
    ProcsOk (update proc q r) (update g p own) := by
  refine h.change (fun p' c hc => .inr ?_) (fun p' q' c hc => ?_) hempty
  · rw [proj_update hproc] at hc
    refine ⟨?_, hc⟩
    rintro rfl
    obtain ⟨heq, halive⟩ := h.own p' c hc
    rw [heq] at hlife
    exact hlife halive
  · rcases eq_or_ne p' p with rfl | hp
    · rw [update_self] at hc
      exact .inl ⟨rfl, hchild q' c hc⟩
    · rw [update_of_ne hp] at hc
      refine .inr ⟨?_, hc⟩
      rintro rfl
      exact hothers p' c hp hc

theorem child_ne_of_life (hlife : (proc q).life ≠ .embryo) (p' : Fin n)
    (c : Proc) : (g p').child ≠ some (q, c) := by
  intro hc
  obtain ⟨heq, hembryo⟩ := h.child p' q c hc
  rw [heq] at hlife
  exact hlife hembryo

theorem child_ne_of_ne (hown : (g p).child = some (q, r))
    (p' : Fin n) (c : Proc) (hne : p' ≠ p) : (g p').child ≠ some (q, c) := by
  intro hc
  exact hne (h.child_inj p' p q c r hc hown)

/-- A process changes the entry of its child. -/
theorem setChild {c : Proc} (hold : (g p).child = some (q, c)) (hproc : own.proc = (g p).proc)
    (hchild : own.child = some (q, r)) (hlife : r.life = .embryo) :
    ProcsOk (update proc q r) (update g p own) := by
  obtain ⟨heq, hembryo⟩ := h.child p q c hold
  refine h.setOther (by rw [heq, hembryo]; decide) hproc (h.child_ne_of_ne hold) ?_ ?_
  · intro q' c' hc
    obtain ⟨rfl, rfl⟩ := Prod.mk.inj (Option.some.inj (hchild.symm.trans hc))
    exact ⟨rfl, rfl, hlife⟩
  · rw [hlife]
    rintro (hbad | hbad) <;> cases hbad

/-- A process changes its own entry, or learns about it. -/
theorem setSelf (hlife : (proc p).life ≠ .embryo)
    (hproc : ∀ c, own.proc = some c → c = r ∧ r.life = .alive) (hchild : own.child = (g p).child)
    (hempty : r.life = .unused ∨ r.life = .zombie → r.ofile = (fun _ => none) ∧ r.cwd = none) :
    ProcsOk (update proc p r) (update g p own) := by
  refine h.change (fun p' c hc => ?_) (fun p' q' c hc => .inr ?_) hempty
  · rcases eq_or_ne p' p with rfl | hp
    · rw [update_self] at hc
      exact .inl ⟨rfl, hproc c hc⟩
    · rw [update_of_ne hp] at hc
      exact .inr ⟨hp, hc⟩
  · rw [proj_update hchild] at hc
    refine ⟨?_, hc⟩
    rintro rfl
    exact h.child_ne_of_life hlife p' c hc

theorem ne_embryo (hown : (g p).proc = some r) : (proc p).life ≠ .embryo := by
  obtain ⟨heq, halive⟩ := h.own p r hown
  rw [heq, halive]
  decide

theorem setOwn {r r' : Proc} (hown : (g p).proc = some r)
    (hproc : own.proc = some r') (hlife : r'.life = .alive) (hchild : own.child = (g p).child) :
    ProcsOk (update proc p r') (update g p own) := by
  refine h.setSelf (h.ne_embryo hown) (fun c hc => ?_) hchild ?_
  · exact ⟨Option.some.inj (hc.symm.trans hproc), hlife⟩
  · rw [hlife]
    rintro (hbad | hbad) <;> cases hbad

theorem enter (hproc : own.proc = some (proc p)) (hlife : (proc p).life = .alive)
    (hchild : own.child = (g p).child) : ProcsOk proc (update g p own) := by
  have hself := h.setSelf (by rw [hlife]; decide)
    (fun c hc => ⟨Option.some.inj (hc.symm.trans hproc), hlife⟩) hchild (h.empty p)
  rwa [update_eq_self] at hself

end

end ProcsOk

/-! ### The file table -/

namespace FilesOk

section

variable (h : FilesOk file proc g)
include h

theorem ref_eq (f : FilePtr) : (file f).ref = ∑ q, (tally (proc q).ofile f + (g q).files f) := by
  have htotal : (tally (slots proc) f : Int) = ∑ q, (tally (proc q).ofile f : Int) := by
    simp only [tally_eq_sum, slots, Fintype.sum_prod_type]
  rw [sum_add_distrib, ← htotal]
  have := h.balanced f
  dsimp only at this
  omega

/-- No process has more references than are counted. -/
theorem share_le (q : Fin n) (f : FilePtr) :
    tally (proc q).ofile f + (g q).files f ≤ (file f).ref := by
  rw [h.ref_eq f]
  exact single_le_sum (fun q _ => h.share_nonneg q f) (mem_univ q)

/-- No two processes together have more references than are counted. -/
theorem share_add_le {p q : Fin n} (hne : p ≠ q) (f : FilePtr) :
    (tally (proc p).ofile f + (g p).files f) + (tally (proc q).ofile f + (g q).files f) ≤
      (file f).ref := by
  rw [h.ref_eq f, ← sum_pair (f := fun q => tally (proc q).ofile f + (g q).files f) hne]
  exact sum_le_sum_of_subset_of_nonneg (subset_univ _) fun q _ _ => h.share_nonneg q f

/-- A file that a process has allocated and not opened is in nobody else's hands. -/
theorem fresh_ne {p q : Fin n} (hfresh : f ∈ (g q).fresh)
    (hshare : 1 ≤ tally (proc p).ofile f + (g p).files f) : q = p := by
  by_contra hne
  obtain ⟨-, href, hone⟩ := h.fresh q f hfresh
  have := h.share_add_le hne f
  omega

/-- The entries of the file table and the process table that matter are the same. -/
theorem congr {file' : FilePtr → File}
    (hfile : ∀ f, (file' f).ref = (file f).ref ∧ (file' f).type = (file f).type)
    (hproc : ∀ q, (proc' q).ofile = (proc q).ofile) : FilesOk file' proc' g := by
  constructor
  · intro t
    dsimp only
    rw [slots_congr hproc, (hfile t).1]
    exact h.balanced t
  · intro q t
    rw [hproc q]
    exact h.share_nonneg q t
  · intro t
    rw [(hfile t).1, (hfile t).2]
    exact h.none_of_zero t
  · intro q t
    rw [(hfile t).1, (hfile t).2, hproc q]
    exact h.fresh q t

/-- The count of an entry changes by `d`, and so does what a process has in its hands. Nobody else
has allocated the entry without opening it. -/
theorem change {x : File} {d : Int} (hothers : ∀ q ≠ p, f ∉ (g q).fresh)
    (hnonneg : 0 ≤ tally (proc p).ofile f + (g p).files f + d) (href : x.ref = (file f).ref + d)
    (hnone : x.ref = 0 → x.type = .FD_NONE)
    (hfiles : own.files = (g p).files + fun t => d * held (some f) t)
    (hfresh : ∀ t ∈ own.fresh, (t ∈ (g p).fresh ∧ t ≠ f) ∨ (t = f ∧ x.type = .FD_NONE ∧ x.ref = 1 ∧
      tally (proc p).ofile f + (g p).files f + d = 1)) :
    FilesOk (update file f x) proc (update g p own) := by
  have hself : own.files f = (g p).files f + d := by rw [hfiles, Pi.add_apply, held_self, mul_one]
  have hother : ∀ t, t ≠ f → own.files t = (g p).files t := by
    intro t ht
    rw [hfiles, Pi.add_apply, held_of_ne ht.symm, mul_zero, add_zero]
  constructor
  · refine h.balanced.update fun t => ?_
    rcases eq_or_ne t f with rfl | ht
    · rw [hself, update_self, href]
      omega
    · rw [hother t ht, update_of_ne ht]
      omega
  · intro q t
    rcases eq_or_ne q p with rfl | hq
    · rw [update_self]
      rcases eq_or_ne t f with rfl | ht
      · rw [hself]
        omega
      · rw [hother t ht]
        exact h.share_nonneg q t
    · rw [update_of_ne hq]
      exact h.share_nonneg q t
  · intro t
    rcases eq_or_ne t f with rfl | ht
    · rwa [update_self]
    · rw [update_of_ne ht]
      exact h.none_of_zero t
  · intro q t ht
    rcases eq_or_ne q p with rfl | hq
    · rw [update_self] at ht ⊢
      rcases hfresh t ht with ⟨hold, hne⟩ | ⟨rfl, htype, hone, hshare⟩
      · rw [update_of_ne hne, hother t hne]
        exact h.fresh q t hold
      · rw [update_self, hself, ← add_assoc]
        exact ⟨htype, hone, hshare⟩
    · rw [update_of_ne hq] at ht ⊢
      have hne : t ≠ f := fun heq => hothers q hq (heq ▸ ht)
      rw [update_of_ne hne]
      exact h.fresh q t ht

/-- A free entry gets its first reference. -/
theorem alloc (hzero : (file f).ref = 0)
    (hfiles : own.files = (g p).files + held (some f)) (hfresh : own.fresh = f :: (g p).fresh) :
    FilesOk (update file f { file f with ref := 1 }) proc (update g p own) := by
  have hnot : ∀ q, f ∉ (g q).fresh := fun q hf => by
    have := (h.fresh q f hf).2.1
    omega
  have hle := h.share_le p f
  have hnonneg := h.share_nonneg p f
  refine h.change (d := 1) (fun q _ => hnot q) (by omega) (by rw [hzero]; rfl) nofun
    (by simpa using hfiles) ?_
  intro t ht
  rw [hfresh] at ht
  rcases List.mem_cons.mp ht with rfl | ht
  · exact .inr ⟨rfl, h.none_of_zero t hzero, rfl, by omega⟩
  · exact .inl ⟨ht, fun heq => hnot p (heq ▸ ht)⟩

/-- The count of an entry changes by one reference in the hands of a process that has one. -/
theorem count {x : File} {d : Int}
    (hshare : 1 ≤ tally (proc p).ofile f + (g p).files f) (href : x.ref = (file f).ref + d)
    (hd : -1 ≤ d) (hnone : x.ref = 0 → x.type = .FD_NONE)
    (hfiles : own.files = (g p).files + fun t => d * held (some f) t)
    (hfresh : ∀ t ∈ own.fresh, t ∈ (g p).fresh ∧ t ≠ f) :
    FilesOk (update file f x) proc (update g p own) :=
  h.change (fun _ hq hf => hq (h.fresh_ne hf hshare)) (by omega) href hnone hfiles
    fun t ht => .inl (hfresh t ht)

/-- A file is opened by who has allocated it. -/
theorem opened {x : File} (hf : f ∈ (g p).fresh)
    (href : x.ref = (file f).ref) (hfiles : own.files = (g p).files)
    (hfresh : ∀ t ∈ own.fresh, t ∈ (g p).fresh ∧ t ≠ f) :
    FilesOk (update file f x) proc (update g p own) := by
  obtain ⟨-, hone, hshare⟩ := h.fresh p f hf
  refine h.count (d := 0) (by omega) (by omega) (by omega) ?_ ?_ hfresh
  · intro hzero
    omega
  · funext t
    simp [hfiles]

/-- A process moves a reference between its hand and one of its own descriptors. -/
theorem setFd {fd : Fd} {v : Option FilePtr} (hr : proc p = r)
    (hfiles : own.files = (g p).files + held (r.ofile fd) - held v)
    (hfresh : own.fresh = (g p).fresh) :
    FilesOk file (update proc p (r.setFd fd v)) (update g p own) := by
  subst hr
  have hsame : ∀ t, (tally ((proc p).setFd fd v).ofile t : Int) + own.files t =
      tally (proc p).ofile t + (g p).files t := by
    intro t
    rw [tally_ofile_setFd, hfiles, Pi.sub_apply, Pi.add_apply]
    omega
  constructor
  · refine h.balanced.update fun t => ?_
    rw [tally_slots_setFd, hfiles, Pi.sub_apply, Pi.add_apply]
    omega
  · intro q t
    rcases eq_or_ne q p with rfl | hq
    · rw [update_self, update_self, hsame t]
      exact h.share_nonneg q t
    · rw [update_of_ne hq, update_of_ne hq]
      exact h.share_nonneg q t
  · exact h.none_of_zero
  · intro q t ht
    rcases eq_or_ne q p with rfl | hq
    · rw [update_self] at ht
      rw [update_self, update_self, hsame t]
      exact h.fresh q t (hfresh ▸ ht)
    · rw [update_of_ne hq] at ht
      rw [update_of_ne hq, update_of_ne hq]
      exact h.fresh q t ht

/-- A process stores a reference from its hand in a descriptor of its child. -/
theorem giveFd {fd : Fd} (hr : proc q = r) (hne : q ≠ p) (hempty : r.ofile fd = none)
    (hshare : 1 < tally (proc p).ofile f + (g p).files f)
    (hfiles : own.files = (g p).files - held (some f)) (hfresh : own.fresh = (g p).fresh) :
    FilesOk file (update proc q (r.setFd fd (some f))) (update g p own) := by
  subst hr
  have hnotfresh : ∀ q', f ∉ (g q').fresh := by
    intro q' hq'
    have hone := (h.fresh q' f hq').2.2
    rw [h.fresh_ne (p := p) hq' (by omega)] at hone
    omega
  constructor
  · refine h.balanced.update fun t => ?_
    rw [tally_slots_setFd, hfiles, Pi.sub_apply, hempty, held_none]
    simp only [Pi.zero_apply]
    omega
  · intro q' t
    rcases eq_or_ne q' p with rfl | hq'
    · rw [update_of_ne hne.symm, update_self, hfiles, Pi.sub_apply]
      rcases eq_or_ne t f with rfl | ht
      · rw [held_self]
        omega
      · rw [held_of_ne ht.symm, sub_zero]
        exact h.share_nonneg q' t
    · rw [update_of_ne hq']
      rcases eq_or_ne q' q with rfl | hqq
      · rw [update_self, tally_ofile_setFd, hempty, held_none]
        have := h.share_nonneg q' t
        have := held_nonneg (some f) t
        simp only [Pi.zero_apply]
        omega
      · rw [update_of_ne hqq]
        exact h.share_nonneg q' t
  · exact h.none_of_zero
  · intro q' t ht
    have hold : t ∈ (g q').fresh := by
      rcases eq_or_ne q' p with rfl | hq'
      · rwa [update_self, hfresh] at ht
      · rwa [update_of_ne hq'] at ht
    have htf : t ≠ f := by
      rintro rfl
      exact hnotfresh q' hold
    obtain ⟨htype, hone, hsum⟩ := h.fresh q' t hold
    refine ⟨htype, hone, ?_⟩
    rcases eq_or_ne q' p with rfl | hq'
    · rwa [update_of_ne hne.symm, update_self, hfiles, Pi.sub_apply, held_of_ne htf.symm, sub_zero]
    · rw [update_of_ne hq']
      rcases eq_or_ne q' q with rfl | hqq
      · rw [update_self, tally_ofile_setFd, hempty, held_none, held_of_ne htf.symm]
        simpa using hsum
      · rwa [update_of_ne hqq]

end

end FilesOk

end Xv6.Files
