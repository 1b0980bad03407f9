import Xv6.Files.Ledgers

/-!
# How the pipes and the inode references change

The lemmas of `Xv6.Files.Ledgers` for the other two ledgers. A pipe is freed by the process that has
closed its second end; until then the page belongs to that process alone.
-/

namespace Xv6.Files

open Interleave Function List

variable {n : Nat} {proc : Fin n → Proc} {file : FilePtr → File} {m m' : Memory n}
  {ref : InodePtr → Int} {g : Fin n → Own n} {p q : Fin n} {own : Own n} {f : FilePtr}
  {pi : PipePtr}

theorem tally_comp_update {ι α τ : Type} [Fintype ι] [DecidableEq ι] [DecidableEq τ]
    (view : α → Option τ) (table : ι → α) (i : ι) (value : α) (t : τ) :
    (tally (view ∘ update table i value) t : Int) =
      tally (view ∘ table) t + held (view value) t - held (view (table i)) t := by
  rw [comp_update, tally_update]
  rfl

/-! ### Ends of pipes -/

namespace Memory

variable {x : PipePtr × Bool}

theorem openEnd_pos (h : 0 < m.openEnd x) : m.IsLive x.1 ∧ m.flag x.1 x.2 = true := by
  unfold openEnd at h
  split at h
  next hopen => exact hopen
  next => cases h

theorem openEnd_congr (hlive : m'.IsLive x.1 ↔ m.IsLive x.1)
    (hflag : m.IsLive x.1 → m'.flag x.1 x.2 = m.flag x.1 x.2) : m'.openEnd x = m.openEnd x := by
  unfold openEnd
  by_cases h : m.IsLive x.1
  · simp only [hlive.mpr h, h, hflag h]
  · rw [if_neg fun hopen => h (hlive.mp hopen.1), if_neg fun hopen => h hopen.1]

end Memory

namespace PipesOk

section

variable (h : PipesOk file m g)
include h

/-- The end in a hand is open. -/
theorem open_of_ends {x : PipePtr × Bool} (hx : 0 < (g p).ends x) :
    m.IsLive x.1 ∧ m.flag x.1 x.2 = true := by
  have hbal := h.balanced x
  dsimp only at hbal
  have hle : (g p).ends x ≤ ∑ q, (g q).ends x :=
    Finset.single_le_sum (fun q _ => h.ends_nonneg q x) (Finset.mem_univ p)
  exact Memory.openEnd_pos (by omega)

/-- The files hold the same ends, and their flags and pages are the same. -/
theorem congr {file' : FilePtr → File}
    (hfile : ∀ f, (file' f).endOf = (file f).endOf) (hpages : m'.pages = m.pages)
    (hfreed : m'.freed = m.freed) (hfreelist : m'.freelist = m.freelist)
    (hflag : ∀ pi w, m'.flag pi w = m.flag pi w) : PipesOk file' m' g := by
  have hends : File.endOf ∘ file' = File.endOf ∘ file := funext hfile
  have hlive : ∀ pi, m'.IsLive pi ↔ m.IsLive pi := by
    intro pi
    rw [Memory.IsLive, Memory.IsLive, hpages, hfreed]
  constructor
  · intro x
    dsimp only
    rw [Memory.openEnd_congr (hlive x.1) fun _ => hflag x.1 x.2, hends]
    exact h.balanced x
  · exact h.ends_nonneg
  · rw [hfreelist]
    exact h.freelist_nodup
  · rw [hfreed]
    exact h.freed_nodup
  · rw [hfreed, hpages]
    exact h.freed_lt
  · intro pi hpi
    rw [hfreelist]
    exact h.page_used pi ((hlive pi).mp hpi)
  · intro pi pi' hpi hpi'
    exact h.page_inj pi pi' ((hlive pi).mp hpi) ((hlive pi').mp hpi')
  · intro q pi hq
    obtain ⟨hpi, hflags⟩ := h.dying q pi hq
    exact ⟨(hlive pi).mpr hpi, fun w => (hflag pi w).trans (hflags w)⟩
  · exact h.dying_inj
  · intro pi hpi
    rcases h.open_or_dying pi ((hlive pi).mp hpi) with ⟨w, hw⟩ | hdying
    · exact .inl ⟨w, (hflag pi w).trans hw⟩
    · exact .inr hdying

/-- An end passes between hand and file. -/
theorem move {x : File} (hends : own.ends = (g p).ends + held (file f).endOf - held x.endOf)
    (hnonneg : ∀ e, 0 ≤ own.ends e) (hdying : own.dying = (g p).dying) :
    PipesOk (update file f x) m (update g p own) := by
  refine h.exchange (fun e => ?_) hnonneg hdying
  rw [tally_comp_update, hends, Pi.sub_apply, Pi.add_apply]
  omega

/-- A process changes one pipe; no other live one is in its page. -/
theorem change (pi : PipePtr) (hother : ∀ pi', pi' ≠ pi → (m'.IsLive pi' ↔ m.IsLive pi') ∧
      (m.IsLive pi' → pi'.page ≠ pi.page ∧ ∀ w, m'.flag pi' w = m.flag pi' w))
    (hends : ∀ x, own.ends x = (g p).ends x + if x.1 = pi then m'.openEnd x - m.openEnd x else 0)
    (hnonneg : ∀ w, 0 ≤ own.ends (pi, w)) (hfreelist : m'.freelist.Nodup)
    (hfreed : m'.freed.Nodup) (hlt : ∀ id ∈ m'.freed, id < m'.pages.length)
    (hsub : ∀ page ∈ m'.freelist, page ∈ m.freelist ∨ page = pi.page)
    (hused : m'.IsLive pi → pi.page ∉ m'.freelist)
    (hmine : ∀ pi', pi' ≠ pi → (own.dying = some pi' ↔ (g p).dying = some pi'))
    (hothers : ∀ q, q ≠ p → (g q).dying ≠ some pi)
    (hdying : own.dying = some pi ↔ m'.IsLive pi ∧ ∀ w, m'.flag pi w = false) :
    PipesOk file m' (update g p own) := by
  have hsame : ∀ q pi', pi' ≠ pi →
      ((update g p own q).dying = some pi' ↔ (g q).dying = some pi') := by
    intro q pi' hne
    rcases eq_or_ne q p with rfl | hq
    · rw [update_self, hmine pi' hne]
    · rw [update_of_ne hq]
  have hfar : ∀ pi', pi' ≠ pi → m'.IsLive pi' → m.IsLive pi' ∧ pi'.page ≠ pi.page := by
    intro pi' hne hpi'
    have hold := (hother pi' hne).1.mp hpi'
    exact ⟨hold, ((hother pi' hne).2 hold).1⟩
  have hself : ∀ q, (update g p own q).dying = some pi → q = p := by
    intro q hq
    by_contra hne
    rw [update_of_ne hne] at hq
    exact hothers q hne hq
  constructor
  · refine h.balanced.update fun x => ?_
    rw [hends x]
    split
    next => omega
    next hne =>
      have hx := hother x.1 hne
      rw [Memory.openEnd_congr hx.1 fun hlive => (hx.2 hlive).2 x.2]
      omega
  · intro q x
    rcases eq_or_ne q p with rfl | hq
    · rw [update_self]
      obtain ⟨pi', w⟩ := x
      rcases eq_or_ne pi' pi with rfl | hne
      · exact hnonneg w
      · rw [hends, if_neg hne, add_zero]
        exact h.ends_nonneg q _
    · rw [update_of_ne hq]
      exact h.ends_nonneg q x
  · exact hfreelist
  · exact hfreed
  · exact hlt
  · intro pi' hpi' hmem
    rcases eq_or_ne pi' pi with rfl | hne
    · exact hused hpi' hmem
    · obtain ⟨hold, hfar⟩ := hfar pi' hne hpi'
      exact (hsub _ hmem).elim (h.page_used pi' hold) hfar
  · intro pi₁ pi₂ hpi₁ hpi₂ hpage
    by_cases hne₁ : pi₁ = pi <;> by_cases hne₂ : pi₂ = pi
    · rw [hne₁, hne₂]
    · exact absurd (hne₁ ▸ hpage.symm) (hfar pi₂ hne₂ hpi₂).2
    · exact absurd (hne₂ ▸ hpage) (hfar pi₁ hne₁ hpi₁).2
    · exact h.page_inj pi₁ pi₂ (hfar pi₁ hne₁ hpi₁).1 (hfar pi₂ hne₂ hpi₂).1 hpage
  · intro q pi' hq
    rcases eq_or_ne pi' pi with rfl | hne
    · obtain rfl := hself q hq
      rw [update_self] at hq
      exact hdying.mp hq
    · obtain ⟨hpi', hflags⟩ := h.dying q pi' ((hsame q pi' hne).mp hq)
      obtain ⟨hlive, hold⟩ := hother pi' hne
      exact ⟨hlive.mpr hpi', fun w => ((hold hpi').2 w).trans (hflags w)⟩
  · intro q q' pi' hq hq'
    rcases eq_or_ne pi' pi with rfl | hne
    · exact (hself q hq).trans (hself q' hq').symm
    · exact h.dying_inj q q' pi' ((hsame q pi' hne).mp hq) ((hsame q' pi' hne).mp hq')
  · intro pi' hpi'
    rcases eq_or_ne pi' pi with rfl | hne
    · by_cases hopen : ∃ w, m'.flag pi' w = true
      · exact .inl hopen
      · refine .inr ⟨p, ?_⟩
        rw [update_self, hdying]
        exact ⟨hpi', fun w => Bool.eq_false_iff.mpr fun hw => hopen ⟨w, hw⟩⟩
    · obtain ⟨hlive, hold⟩ := hother pi' hne
      rcases h.open_or_dying pi' (hlive.mp hpi') with ⟨w, hw⟩ | ⟨q, hq⟩
      · exact .inl ⟨w, ((hold (hlive.mp hpi')).2 w).trans hw⟩
      · exact .inr ⟨q, (hsame q pi' hne).mpr hq⟩

/-- A process marks an end in its hand as closed, and may free the pipe if both ends are. -/
theorem close {w : Bool} (hw : 0 < (g p).ends (pi, w))
    (hnone : (g p).dying = none) (hpages : m'.pages = m.pages) (hfreed : m'.freed = m.freed)
    (hfreelist : m'.freelist = m.freelist) (hflag : ∀ pi' w', m'.flag pi' w' =
      if pi'.page = pi.page ∧ w' = w then false else m.flag pi' w')
    (hends : own.ends = (g p).ends - held (some (pi, w)))
    (hdying : own.dying = if m.flag pi (!w) then none else some pi) :
    PipesOk file m' (update g p own) := by
  obtain ⟨hpi, hopen⟩ := h.open_of_ends hw
  have hlive : ∀ pi', m'.IsLive pi' ↔ m.IsLive pi' := by
    intro pi'
    rw [Memory.IsLive, Memory.IsLive, hpages, hfreed]
  have hclosed : m'.flag pi w = false := by
    rw [hflag, if_pos ⟨rfl, rfl⟩]
  have hsecond : m'.flag pi (!w) = m.flag pi (!w) := by
    rw [hflag, if_neg]
    intro heq
    cases w <;> exact absurd heq.2 (by decide)
  have hend : ∀ w', held (some (pi, w)) (pi, w') = m.openEnd (pi, w') - m'.openEnd (pi, w') := by
    intro w'
    unfold Memory.openEnd
    simp only [hlive, hpi, true_and]
    rcases eq_or_ne w' w with rfl | hne
    · rw [held_self, hopen, hclosed]
      rfl
    · obtain rfl : w' = !w := by cases w <;> cases w' <;> simp_all
      rw [held_of_ne (by simp), hsecond, sub_self]
  refine h.change pi ?_ ?_ ?_ (hfreelist ▸ h.freelist_nodup) (hfreed ▸ h.freed_nodup) ?_ ?_
    ?_ ?_ ?_ ?_
  · intro pi' hne
    refine ⟨hlive pi', fun hpi' => ?_⟩
    have hpage : pi'.page ≠ pi.page := fun heq => hne (h.page_inj pi' pi hpi' hpi heq)
    exact ⟨hpage, fun w' => by rw [hflag, if_neg fun heq => hpage heq.1]⟩
  · rintro ⟨pi', w'⟩
    rw [hends, Pi.sub_apply]
    split
    next heq =>
      obtain rfl : pi' = pi := heq
      rw [hend]
      omega
    next hne => rw [held_of_ne fun heq => hne (congrArg Prod.fst heq).symm, sub_zero, add_zero]
  · intro w'
    rw [hends, Pi.sub_apply]
    rcases eq_or_ne w' w with rfl | hne
    · rw [held_self]
      omega
    · rw [held_of_ne (by simpa using hne.symm), sub_zero]
      exact h.ends_nonneg p _
  · rw [hfreed, hpages]
    exact h.freed_lt
  · intro page hmem
    rw [hfreelist] at hmem
    exact .inl hmem
  · intro _
    rw [hfreelist]
    exact h.page_used pi hpi
  · intro pi' hne
    rw [hdying, hnone]
    split <;> simp [hne.symm]
  · intro q _ hq
    have := (h.dying q pi hq).2 w
    rw [hopen] at this
    cases this
  · rw [hdying, hlive, Bool.forall_bool]
    cases w <;> simp_all

/-- A pipe is freed by who has closed its last end. -/
theorem kfree (hdy : (g p).dying = some pi)
    (hpages : m'.pages = m.pages) (hfreed : m'.freed = pi.id :: m.freed)
    (hfreelist : m'.freelist = pi.page :: m.freelist)
    (hflag : ∀ pi w, m'.flag pi w = m.flag pi w) (hends : own.ends = (g p).ends)
    (hdying : own.dying = none) : PipesOk file m' (update g p own) := by
  obtain ⟨hpi, hflags⟩ := h.dying p pi hdy
  have hdead : ¬ m'.IsLive pi := by
    intro hbad
    rw [Memory.IsLive, hfreed] at hbad
    exact hbad.2 mem_cons_self
  refine h.change pi ?_ ?_ ?_ ?_ ?_ ?_ ?_ (absurd · hdead) ?_ ?_ ?_
  · intro pi' hne
    have hpage : m.pages[pi'.id]? = some pi'.page → pi'.id ≠ pi.id := by
      intro hpi' hid
      have hat := hpi.1
      rw [← hid, hpi'] at hat
      exact hne (h.page_inj pi' pi ⟨hpi', hid ▸ hpi.2⟩ hpi (Option.some.inj hat))
    refine ⟨?_, fun hpi' => ⟨fun heq => hne (h.page_inj pi' pi hpi' hpi heq), hflag pi'⟩⟩
    rw [Memory.IsLive, Memory.IsLive, hpages, hfreed, mem_cons, not_or]
    exact ⟨fun ⟨hat, hid⟩ => ⟨hat, hid.2⟩, fun ⟨hat, hid⟩ => ⟨hat, hpage hat, hid⟩⟩
  · rintro ⟨pi', w⟩
    rw [hends]
    split
    next heq =>
      obtain rfl : pi' = pi := heq
      have hold : m.openEnd (pi', w) = 0 := if_neg fun hbad => by
        rw [hflags] at hbad
        exact absurd hbad.2 (by decide)
      have hnew : m'.openEnd (pi', w) = 0 := if_neg fun hbad => hdead hbad.1
      omega
    next => rw [add_zero]
  · intro w
    rw [hends]
    exact h.ends_nonneg p _
  · rw [hfreelist]
    exact nodup_cons.mpr ⟨h.page_used pi hpi, h.freelist_nodup⟩
  · rw [hfreed]
    exact nodup_cons.mpr ⟨hpi.2, h.freed_nodup⟩
  · rw [hfreed, hpages]
    exact forall_mem_cons.mpr ⟨(List.getElem?_eq_some_iff.mp hpi.1).1, h.freed_lt⟩
  · intro page hmem
    rw [hfreelist] at hmem
    exact (mem_cons.mp hmem).symm
  · intro pi' hne
    rw [hdying, hdy]
    simp [hne.symm]
  · intro q hq hbad
    exact hq (h.dying_inj q p pi hbad hdy)
  · rw [hdying]
    exact ⟨nofun, fun hbad => absurd hbad.1 hdead⟩

/-- Both ends of a new pipe are in the hands of its maker. -/
theorem kalloc {page : Nat} (hpage : page ∈ m.freelist)
    (hends : own.ends = (g p).ends + held (some (m.nextPipe page, false)) +
      held (some (m.nextPipe page, true))) (hdying : own.dying = (g p).dying) :
    PipesOk file (m.kalloc page) (update g p own) := by
  have hpages : (m.kalloc page).pages = m.pages ++ [page] := rfl
  have hlive : (m.kalloc page).IsLive (m.nextPipe page) :=
    ⟨getElem?_concat_length, fun hmem => absurd (h.freed_lt _ hmem) (lt_irrefl _)⟩
  have hnew : ¬ m.IsLive (m.nextPipe page) := fun hbad =>
    lt_irrefl _ (List.getElem?_eq_some_iff.mp hbad.1).1
  have hfresh : ∀ w, (m.kalloc page).flag (m.nextPipe page) w = true := by
    intro w
    cases w <;> simp [Memory.flag, Memory.kalloc, Memory.nextPipe, Pipe.State.fresh]
  have hnone : ∀ q, (g q).dying ≠ some (m.nextPipe page) := fun q hq => hnew (h.dying q _ hq).1
  have hheld : ∀ x, own.ends x = (g p).ends x + if x.1 = m.nextPipe page then 1 else 0 := by
    rintro ⟨pi', w⟩
    rw [hends, Pi.add_apply, Pi.add_apply]
    split
    next heq =>
      obtain rfl : pi' = m.nextPipe page := heq
      cases w <;> simp [held]
    next hne =>
      rw [held_of_ne fun heq => hne (congrArg Prod.fst heq).symm,
        held_of_ne fun heq => hne (congrArg Prod.fst heq).symm]
      omega
  refine h.change (m.nextPipe page) ?_ ?_ ?_ (h.freelist_nodup.erase page) h.freed_nodup ?_ ?_
    ?_ ?_ (fun q _ => hnone q) ?_
  · intro pi' hne
    constructor
    · rw [Memory.IsLive, Memory.IsLive, hpages]
      refine and_congr_left fun _ => ?_
      rcases lt_trichotomy pi'.id m.pages.length with hlt | heq | hgt
      · rw [getElem?_append_left hlt]
      · -- the only pipe with the next number is the new one
        obtain ⟨page', id⟩ := pi'
        obtain rfl : id = m.pages.length := heq
        rw [getElem?_concat_length, getElem?_eq_none le_rfl]
        refine ⟨fun hat => hne.elim ?_, by simp⟩
        cases hat
        rfl
      · rw [getElem?_eq_none (by simpa using Nat.succ_le_of_lt hgt), getElem?_eq_none hgt.le]
    · intro hpi'
      have hne' : pi'.page ≠ page := fun heq => h.page_used pi' hpi' (heq ▸ hpage)
      exact ⟨hne', fun w => by simp only [Memory.flag, Memory.kalloc, update_of_ne hne']⟩
  · intro x
    rw [hheld]
    split
    next heq =>
      obtain ⟨pi', w⟩ := x
      obtain rfl : pi' = m.nextPipe page := heq
      have h0 : m.openEnd (m.nextPipe page, w) = 0 := if_neg fun hbad => hnew hbad.1
      have h1 : (m.kalloc page).openEnd (m.nextPipe page, w) = 1 := if_pos ⟨hlive, hfresh w⟩
      rw [h0, h1]
      rfl
    next => rfl
  · intro w
    have := h.ends_nonneg p (m.nextPipe page, w)
    rw [hheld, if_pos rfl]
    omega
  · intro id hmem
    rw [hpages, length_append]
    exact Nat.lt_add_right _ (h.freed_lt id hmem)
  · intro page' hmem
    exact .inl (mem_of_mem_erase hmem)
  · intro _ hmem
    exact h.freelist_nodup.not_mem_erase hmem
  · intro pi' _
    rw [hdying]
  · rw [hdying]
    refine ⟨fun hbad => absurd hbad (hnone p), fun hbad => ?_⟩
    have := hbad.2 true
    rw [hfresh] at this
    cases this

end

end PipesOk

/-! ### References to inodes -/

namespace InodesOk

section

variable (h : InodesOk ref proc file g)
include h

variable {ref' : InodePtr → Int}

/-- The counts, the current directories and the open files are the same. -/
theorem congr {proc' : Fin n → Proc} {file' : FilePtr → File} (href : ∀ ip, ref' ip = ref ip)
    (hproc : ∀ q, (proc' q).cwd = (proc q).cwd)
    (hfile : ∀ f, (file' f).inodeOf = (file f).inodeOf) :
    InodesOk ref' proc' file' g := by
  have hcwds : Proc.cwd ∘ proc' = Proc.cwd ∘ proc := funext hproc
  have hinodes : File.inodeOf ∘ file' = File.inodeOf ∘ file := funext hfile
  intro ip
  dsimp only
  rw [href, hcwds, hinodes]
  exact h ip

/-- The count changes by what the hands gain. -/
theorem count (hinodes : ∀ ip, own.inodes ip = (g p).inodes ip + (ref' ip - ref ip)) :
    InodesOk ref' proc file (update g p own) := by
  refine Balanced.update h fun ip => ?_
  rw [hinodes]
  omega

/-- A reference moves between a process's hand and an open file. -/
theorem moveFile {x : File}
    (hinodes : own.inodes = (g p).inodes + held (file f).inodeOf - held x.inodeOf) :
    InodesOk ref proc (update file f x) (update g p own) := by
  refine Balanced.update h fun ip => ?_
  rw [tally_comp_update, hinodes, Pi.sub_apply, Pi.add_apply]
  omega

/-- A reference moves between a process's hand and a current directory. -/
theorem moveCwd {r : Proc} (hinodes : own.inodes = (g p).inodes + held (proc q).cwd - held r.cwd) :
    InodesOk ref (update proc q r) file (update g p own) := by
  refine Balanced.update h fun ip => ?_
  rw [tally_comp_update, hinodes, Pi.sub_apply, Pi.add_apply]
  omega

end

end InodesOk

end Xv6.Files
