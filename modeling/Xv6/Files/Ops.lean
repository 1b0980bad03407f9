import Xv6.Files.InodeRefs

/-!
# What each operation does to the references

One triple for each operation on the file table, the descriptors, the process table and the pipes.
-/

namespace Xv6.Files

open Interleave Function Option

/-! ### Changes that a ledger does not see -/

section Ledgers

variable {n : Nat} {proc : Fin n → Proc} {file : FilePtr → File} {m : Memory n}
  {ref : InodePtr → Int}
  {g : Fin n → Own n} {p q : Fin n} {own : Own n} {f : FilePtr} {r : Proc} {x : File}

theorem FilesOk.setProc (h : FilesOk file proc g) (hofile : r.ofile = (proc q).ofile)
    (hfiles : own.files = (g p).files) (hfresh : own.fresh = (g p).fresh) :
    FilesOk file (update proc q r) (update g p own) :=
  (h.congr (fun _ => ⟨rfl, rfl⟩) (proj_update hofile)).same hfiles hfresh

theorem InodesOk.setProc (h : InodesOk ref proc file g) (hcwd : r.cwd = (proc q).cwd)
    (hinodes : own.inodes = (g p).inodes) : InodesOk ref (update proc q r) file (update g p own) :=
  (h.congr (fun _ => rfl) (proj_update hcwd) fun _ => rfl).same hinodes

theorem PipesOk.setFile (h : PipesOk file m g) (hend : x.endOf = (file f).endOf)
    (hends : own.ends = (g p).ends) (hdying : own.dying = (g p).dying) :
    PipesOk (update file f x) m (update g p own) :=
  (h.congr (proj_update hend) rfl rfl rfl fun _ _ => rfl).same hends hdying

theorem InodesOk.setFile (h : InodesOk ref proc file g) (hinode : x.inodeOf = (file f).inodeOf)
    (hinodes : own.inodes = (g p).inodes) : InodesOk ref proc (update file f x) (update g p own) :=
  (h.congr (fun _ => rfl) (fun _ => rfl) (proj_update hinode)).same hinodes

end Ledgers

variable {n : Nat} [NeZero n] {sb : Superblock} {p : Fin n} {own : Own n} {r : Proc} {f : FilePtr}

/-- An operation that reads only. -/
theorem triple_same {o : Op n} {post : Res o → Own n → Prop} (hsilent : silent o = false)
    (h : ∀ s g choice, Inv s g → g p = own →
      (exec sb p choice o s).Ensures (fun _ => True) fun result s' => s' = s ∧ post result own) :
    Triple sb p own (.perform o) post := by
  refine .perform hsilent trivial fun s g choice hinv hown _ => ?_
  refine (h s g choice hinv hown).mono ?_
  rintro result s' ⟨rfl, hpost⟩
  refine ⟨own, ?_, hpost⟩
  rwa [← hown, update_eq_self]

theorem triple_stop {α : Type} {message : String} {post : α → Own n → Prop} :
    Triple sb p own (stop message) post := by
  intro s g hinv
  exact Discipline.wp_op own rfl hinv trivial fun _ _ _ _ _ _ => trivial

theorem triple_succeeds : Moves sb p own (.perform .succeeds) own :=
  triple_same rfl fun _ _ _ _ _ => ⟨rfl, rfl⟩

theorem triple_device : Moves sb p own (.perform .device) own :=
  triple_same rfl fun _ _ _ _ _ => ⟨rfl, rfl⟩

theorem triple_file : Moves sb p own (.perform (.file f)) own :=
  triple_same rfl fun _ _ _ _ _ => ⟨rfl, rfl⟩

/-! ### The file table -/

/-- The new file is in the hands of its caller, not opened yet. -/
theorem triple_filealloc : Triple sb p own filealloc fun found own' =>
      match found with
      | none => own' = own
      | some f => f ∉ own.fresh ∧
          own' = { own with files := own.files + held (some f), fresh := f :: own.fresh } := by
  refine .perform rfl trivial ?_
  rintro s g choice hinv rfl _
  show Outcome.Ensures _ _ (exec sb p choice .filealloc s)
  simp only [exec]
  split
  next f hfind =>
    have hzero : (s.file f).ref = 0 := by
      have := List.find?_some hfind
      simpa using this
    have hnone := hinv.files.none_of_zero f hzero
    have hnew : f ∉ (g p).fresh := by
      intro hf
      have := (hinv.files.fresh p f hf).2.1
      omega
    refine ⟨_, ?_, hnew, rfl⟩
    refine ⟨hinv.procs.same ?_ ?_, hinv.files.alloc hzero rfl rfl, ?_, ?_⟩
    · rfl
    · rfl
    · exact hinv.pipes.setFile (by simp [File.endOf, hnone]) rfl rfl
    · exact hinv.inodes.setFile (by simp [File.inodeOf, hnone]) rfl
  next => exact ⟨g p, by rwa [update_eq_self], rfl⟩

theorem File.of_none {x : File} (h : x.type = .FD_NONE) : x.endOf = none ∧ x.inodeOf = none := by
  simp [File.endOf, File.inodeOf, h]

/-- The share of a process in the references to a file. -/
def Own.share (own : Own n) (r : Proc) (f : FilePtr) : Int := tally r.ofile f + own.files f

variable {k : Int}

/-- An operation that changes a file's count while it stays open changes nothing else. -/
theorem endOf_of_ref {x : File} (h : 0 < x.ref) (hk : 0 < k) :
    ({ x with ref := k } : File).endOf = x.endOf := by
  simp [File.endOf, h, hk]

theorem inodeOf_of_ref {x : File} (h : 0 < x.ref) (hk : 0 < k) :
    ({ x with ref := k } : File).inodeOf = x.inodeOf := by
  simp [File.inodeOf, h, hk]

/-- One more reference, for a process that has one. -/
theorem triple_filedup (hr : own.proc = some r) (hfresh : f ∉ own.fresh)
    (hshare : 1 ≤ own.share r f) :
    Moves sb p own (filedup f) { own with files := own.files + held (some f) } := by
  refine .perform rfl trivial ?_
  rintro s g choice hinv rfl _
  have hproc := (hinv.procs.own p r hr).1
  rw [← hproc] at hshare
  show Outcome.Ensures _ _ (exec sb p choice (.filedup f) s)
  simp only [exec]
  split
  · trivial
  · next hpos =>
    have hpos : 0 < (s.file f).ref := by omega
    refine ⟨hinv.procs.same ?_ ?_, hinv.files.count hshare rfl (by decide) ?_ ?_ ?_, ?_, ?_⟩
    · rfl
    · rfl
    · dsimp only
      omega
    · funext t
      simp
    · intro t ht
      refine ⟨ht, ?_⟩
      rintro rfl
      exact hfresh ht
    · exact hinv.pipes.setFile (endOf_of_ref hpos (by omega)) rfl rfl
    · exact hinv.inodes.setFile (inodeOf_of_ref hpos (by omega)) rfl

/-- What `fileclose` leaves to its caller: what the file held, if it was the last reference. -/
def Own.closed (own : Own n) (f : FilePtr) (last : Option File) : Own n :=
  { own with
    files := own.files - held (some f)
    fresh := own.fresh.filter (· ≠ f)
    ends := own.ends + held (last.bind File.endOf)
    inodes := own.inodes + held (last.bind File.inodeOf) }

theorem mem_filter_ne {fresh : List FilePtr} {t : FilePtr} (h : t ∈ fresh.filter (· ≠ f)) :
    t ∈ fresh ∧ t ≠ f := by
  simpa using h

/-- A reference is given up; what the last one held is in the caller's hands. -/
theorem triple_filecloseOp (hr : own.proc = some r) (hshare : 1 ≤ own.share r f) :
    Triple sb p own (.perform (.fileclose f)) fun (last : Option File) own' =>
      (∀ ff, last = some ff → 0 < ff.ref) ∧ own' = own.closed f last := by
  refine .perform rfl trivial ?_
  rintro s g choice hinv rfl _
  have hproc := (hinv.procs.own p r hr).1
  rw [← hproc] at hshare
  have hfiles : (g p).files - held (some f) = (g p).files + fun t => -1 * held (some f) t := by
    funext t
    simp only [Pi.sub_apply, Pi.add_apply]
    omega
  show Outcome.Ensures _ _ (exec sb p choice (.fileclose f) s)
  simp only [exec]
  split
  · trivial
  · split
    · next _ hmore =>
      refine ⟨_, ?_, by simp, rfl⟩
      refine ⟨hinv.procs.same ?_ ?_, hinv.files.count hshare rfl le_rfl ?_ hfiles
        fun t ht => mem_filter_ne ht, ?_, ?_⟩
      · rfl
      · rfl
      · dsimp only
        omega
      · refine hinv.pipes.move ?_ ?_ rfl
        · have hsame := endOf_of_ref (x := s.file f) (by omega) hmore
          rw [hsame, add_sub_cancel_right]
          exact add_zero _
        · intro e
          exact (hinv.pipes.ends_nonneg p e).trans_eq (by simp [Own.closed])
      · refine hinv.inodes.moveFile ?_
        have hsame := inodeOf_of_ref (x := s.file f) (by omega) hmore
        rw [hsame, add_sub_cancel_right]
        exact add_zero _
    · next hpos hlast =>
      obtain ⟨hend, hinode⟩ := File.of_none (x := { s.file f with ref := 0, type := .FD_NONE }) rfl
      refine ⟨_, ?_, ?_, rfl⟩
      rotate_left
      · rintro ff ⟨⟩
        omega
      refine ⟨hinv.procs.same ?_ ?_, hinv.files.count hshare ?_ le_rfl
        (fun _ => rfl) hfiles fun t ht => mem_filter_ne ht, ?_, ?_⟩
      · rfl
      · rfl
      · dsimp only
        omega
      · refine hinv.pipes.move ?_ ?_ rfl
        · rw [hend, held_none, sub_zero]
          rfl
        · intro e
          exact add_nonneg (hinv.pipes.ends_nonneg p e) (held_nonneg _ e)
      · refine hinv.inodes.moveFile ?_
        rw [hinode, held_none, sub_zero]
        rfl

/-- The inode passes from the hands to the file. -/
theorem triple_openInode {ip : InodePtr} {d : Dinode} {omode : BitVec 32} (hf : f ∈ own.fresh) :
    Moves sb p own (.perform (.openInode f ip d omode)) { own with
        fresh := own.fresh.filter (· ≠ f), inodes := own.inodes - held (some ip) } := by
  refine .perform rfl trivial ?_
  rintro s g choice hinv rfl _
  obtain ⟨hnone, hone, -⟩ := hinv.files.fresh p f hf
  obtain ⟨hend, hinode⟩ := File.of_none hnone
  have htype : ((s.file f).openInode ip d omode).type = .FD_INODE ∨
      ((s.file f).openInode ip d omode).type = .FD_DEVICE := by
    unfold File.openInode
    split
    · exact .inr rfl
    · exact .inl rfl
  have hend' : ((s.file f).openInode ip d omode).endOf = none := by
    rcases htype with htype | htype <;> simp [File.endOf, htype]
  have hinode' : ((s.file f).openInode ip d omode).inodeOf = some ip :=
    if_pos ⟨lt_of_lt_of_eq Int.one_pos hone.symm, htype⟩
  refine ⟨hinv.procs.same ?_ ?_, hinv.files.opened hf rfl rfl fun t ht => mem_filter_ne ht,
    hinv.pipes.move ?_ (hinv.pipes.ends_nonneg p) rfl, hinv.inodes.moveFile ?_⟩
  · rfl
  · rfl
  · rw [hend, hend', held_none, add_zero, sub_zero]
  · rw [hinode, hinode', held_none, add_zero]

/-- So does the end of a pipe. -/
theorem triple_openPipe {pi : PipePtr} {w : Bool} (hf : f ∈ own.fresh) (hw : 0 < own.ends (pi, w)) :
    Moves sb p own (.perform (.openPipe f pi w)) { own with
        fresh := own.fresh.filter (· ≠ f), ends := own.ends - held (some (pi, w)) } := by
  refine .perform rfl trivial ?_
  rintro s g choice hinv rfl _
  obtain ⟨hnone, hone, -⟩ := hinv.files.fresh p f hf
  obtain ⟨hend, hinode⟩ := File.of_none hnone
  have hend' : ((s.file f).openPipe pi w).endOf = some (pi, w) := by
    simp [File.endOf, File.openPipe, hone]
  have hinode' : ((s.file f).openPipe pi w).inodeOf = none := by
    simp [File.inodeOf, File.openPipe]
  refine ⟨hinv.procs.same ?_ ?_, hinv.files.opened hf rfl rfl fun t ht => mem_filter_ne ht,
    hinv.pipes.move ?_ ?_ rfl, hinv.inodes.moveFile ?_⟩
  · rfl
  · rfl
  · rw [hend, hend', held_none, add_zero]
  · intro e
    show 0 ≤ ((g p).ends - held (some (pi, w))) e
    rw [Pi.sub_apply]
    rcases eq_or_ne e (pi, w) with rfl | he
    · rw [held_self]
      omega
    · rw [held_of_ne he.symm, sub_zero]
      exact hinv.pipes.ends_nonneg p e
  · rw [hinode, hinode', held_none, add_zero, sub_zero]

theorem triple_addOff : Moves sb p own (.perform (.addOff f k)) own := by
  refine .perform rfl trivial ?_
  rintro s g choice hinv rfl _
  refine ⟨hinv.procs.same rfl rfl, ?_, hinv.pipes.setFile rfl rfl rfl, hinv.inodes.setFile rfl rfl⟩
  refine FilesOk.same (hinv.files.congr (fun t => ?_) fun _ => rfl) rfl rfl
  exact ⟨proj_update (φ := File.ref) (by rfl) t, proj_update (φ := File.type) (by rfl) t⟩

/-! ### Descriptors and the current directory -/

variable {fd : Fd}

theorem triple_ofile (hr : own.proc = some r) :
    Triple sb p own (.perform (.ofile fd)) fun found own' =>
      found = r.ofile fd ∧ own' = own := by
  refine triple_same rfl fun s g choice hinv hown => ⟨rfl, ?_, rfl⟩
  subst hown
  rw [(hinv.procs.own p r hr).1]

theorem triple_cwd (hr : own.proc = some r) : Triple sb p own (.perform .cwd) fun ip own' =>
      r.cwd = some ip ∧ own' = own := by
  refine triple_same rfl fun s g choice hinv hown => ?_
  subst hown
  simp only [exec]
  rw [(hinv.procs.own p r hr).1]
  split
  next ip hip => exact ⟨rfl, hip, trivial⟩
  next => trivial

variable {g : Fin n → Own n}

omit [NeZero n] in
theorem inv_setFd {s : State n} (hinv : Inv s g) (hr : (g p).proc = some r)
    (fd : Fd) (v : Option FilePtr) :
    Inv (s.setProc p fun proc => proc.setFd fd v) (update g p { g p with
      proc := some (r.setFd fd v), files := (g p).files + held (r.ofile fd) - held v }) := by
  obtain ⟨hproc, hlife⟩ := hinv.procs.own p r hr
  refine ⟨?_, ?_, hinv.pipes.same rfl rfl, ?_⟩
  · rw [State.setProc, hproc]
    exact hinv.procs.setOwn hr rfl hlife rfl
  · rw [State.setProc, hproc]
    exact hinv.files.setFd hproc rfl rfl
  · exact hinv.inodes.setProc rfl rfl

section

variable (hr : own.proc = some r)
include hr

/-- The reference passes from the hand to a descriptor. -/
theorem triple_fdalloc : Triple sb p own (fdalloc f) fun found own' =>
      match found with
      | none => own' = own
      | some fd => r.ofile fd = none ∧ own' = { own with
          proc := some (r.setFd fd (some f)), files := own.files - held (some f) } := by
  refine .perform rfl trivial ?_
  rintro s g choice hinv rfl _
  have hproc := (hinv.procs.own p r hr).1
  show Outcome.Ensures _ _ (exec sb p choice (.fdalloc f) s)
  simp only [exec]
  split
  next fd hfind =>
    have hfree : r.ofile fd = none := by
      have := List.find?_some hfind
      rw [hproc] at this
      simpa using this
    have hset := inv_setFd hinv hr fd (some f)
    rw [hfree, held_none, add_zero] at hset
    exact ⟨_, hset, hfree, rfl⟩
  next => exact ⟨g p, by rwa [update_eq_self], rfl⟩

theorem triple_clearFd : Moves sb p own (.perform (.clearFd fd)) { own with
        proc := some (r.setFd fd none), files := own.files + held (r.ofile fd) } := by
  refine .perform rfl trivial ?_
  rintro s g choice hinv rfl _
  have hset := inv_setFd hinv hr fd none
  rwa [held_none, sub_zero] at hset

theorem triple_setCwd {ip : Option InodePtr} : Moves sb p own (.perform (.setCwd ip)) { own with
        proc := some { r with cwd := ip }, inodes := own.inodes + held r.cwd - held ip } := by
  refine .perform rfl trivial ?_
  rintro s g choice hinv rfl _
  obtain ⟨hproc, hlife⟩ := hinv.procs.own p r hr
  refine ⟨?_, ?_, hinv.pipes.same rfl rfl, ?_⟩
  · rw [State.setProc, hproc]
    exact hinv.procs.setOwn hr rfl hlife rfl
  · exact hinv.files.setProc rfl rfl rfl
  · refine hinv.inodes.moveCwd ?_
    rw [hproc]

end

/-! ### The process table -/

variable {q : Fin n}

/-- A free slot becomes an embryo that its finder fills. -/
theorem triple_allocproc (hr : own.proc = some r) :
    Triple sb p own (.perform (.allocproc q)) fun unused own' =>
      if unused then q ≠ p ∧ own' = { own with child := some (q, ⟨.embryo, fun _ => none, none⟩) }
      else own' = own := by
  refine .perform rfl trivial ?_
  rintro s g choice hinv rfl _
  obtain ⟨hproc, hlife⟩ := hinv.procs.own p r hr
  show Outcome.Ensures _ _ (exec sb p choice (.allocproc q) s)
  simp only [exec]
  split
  next hunused =>
    obtain ⟨hofile, hcwd⟩ := hinv.procs.empty q (.inl hunused)
    have hne : q ≠ p := by
      rintro rfl
      rw [hproc, hlife] at hunused
      cases hunused
    have hentry : ({ s.proc q with life := .embryo } : Proc) = ⟨.embryo, fun _ => none, none⟩ := by
      rw [← hofile, ← hcwd]
    refine ⟨_, ?_, hne, rfl⟩
    refine ⟨?_, ?_, hinv.pipes.same rfl rfl, ?_⟩
    · rw [State.setProc, hentry]
      refine hinv.procs.setOther ?_ rfl (fun p' c _ => ?_) ?_ ?_
      · rw [hunused]
        decide
      · exact hinv.procs.child_ne_of_life (by rw [hunused]; decide) p' c
      · rintro q' c ⟨⟩
        exact ⟨rfl, rfl, rfl⟩
      · intro _
        exact ⟨rfl, rfl⟩
    · exact hinv.files.setProc rfl rfl rfl
    · exact hinv.inodes.setProc rfl rfl
  next => trivial
  next => exact ⟨g p, by rwa [update_eq_self], rfl⟩

variable {c : Proc}

omit [NeZero n] in
theorem inv_setLife {s : State n} {life : Life}
    (hinv : Inv s g) (hchild : (g p).child = some (q, c))
    (hempty : life = .unused ∨ life = .zombie → c.ofile = (fun _ => none) ∧ c.cwd = none) :
    Inv (s.setProc q fun proc => { proc with life := life })
      (update g p { g p with child := none }) := by
  obtain ⟨hproc, hlife⟩ := hinv.procs.child p q c hchild
  refine ⟨?_, ?_, hinv.pipes.same rfl rfl, ?_⟩
  · rw [State.setProc, hproc]
    refine hinv.procs.setOther ?_ rfl (hinv.procs.child_ne_of_ne hchild) nofun hempty
    rw [hproc, hlife]
    decide
  · exact hinv.files.setProc rfl rfl rfl
  · exact hinv.inodes.setProc rfl rfl

theorem triple_freeproc (hchild : own.child = some (q, c))
    (hofile : c.ofile = fun _ => none) (hcwd : c.cwd = none) :
    Moves sb p own (.perform (.freeproc q)) { own with child := none } := by
  refine .perform rfl trivial ?_
  rintro s g choice hinv rfl _
  exact inv_setLife hinv hchild fun _ => ⟨hofile, hcwd⟩

theorem triple_setRunnable (hchild : own.child = some (q, c)) :
    Moves sb p own (.perform (.setRunnable q)) { own with child := none } := by
  refine .perform rfl trivial ?_
  rintro s g choice hinv rfl _
  refine inv_setLife hinv hchild ?_
  rintro (hbad | hbad) <;> cases hbad

/-- The child gets a reference that was counted for it. -/
theorem triple_setChildFd (hr : own.proc = some r)
    (hchild : own.child = some (q, c)) (hne : q ≠ p) (hfree : c.ofile fd = none)
    (hshare : 1 < own.share r f) :
    Moves sb p own (.perform (.setChildFd q fd f)) { own with
        child := some (q, c.setFd fd (some f)), files := own.files - held (some f) } := by
  refine .perform rfl trivial ?_
  rintro s g choice hinv rfl _
  obtain ⟨hproc, hlife⟩ := hinv.procs.child p q c hchild
  have hown := (hinv.procs.own p r hr).1
  refine ⟨?_, ?_, hinv.pipes.same rfl rfl, ?_⟩
  · rw [State.setProc, hproc]
    exact hinv.procs.setChild hchild rfl rfl hlife
  · rw [State.setProc, hproc]
    refine hinv.files.giveFd hproc hne hfree ?_ rfl rfl
    rwa [hown]
  · exact hinv.inodes.setProc rfl rfl

/-- So for its current directory. -/
theorem triple_setChildCwd {ip : InodePtr}
    (hchild : own.child = some (q, c)) (hfree : c.cwd = none) :
    Moves sb p own (.perform (.setChildCwd q ip)) { own with
        child := some (q, { c with cwd := some ip }), inodes := own.inodes - held (some ip) } := by
  refine .perform rfl trivial ?_
  rintro s g choice hinv rfl _
  obtain ⟨hproc, hlife⟩ := hinv.procs.child p q c hchild
  refine ⟨?_, ?_, hinv.pipes.same rfl rfl, ?_⟩
  · rw [State.setProc, hproc]
    exact hinv.procs.setChild hchild rfl rfl hlife
  · exact hinv.files.setProc rfl rfl rfl
  · refine hinv.inodes.moveCwd ?_
    rw [hproc, hfree, held_none, add_zero]

/-- A process exits with nothing open. -/
theorem triple_setZombie (hr : own.proc = some r) (hofile : r.ofile = fun _ => none)
    (hcwd : r.cwd = none) :
    Moves sb p own (.perform .setZombie) { own with proc := none } := by
  refine .perform rfl trivial ?_
  rintro s g choice hinv rfl _
  obtain ⟨hproc, hlife⟩ := hinv.procs.own p r hr
  refine ⟨?_, ?_, hinv.pipes.same rfl rfl, ?_⟩
  · rw [State.setProc, hproc]
    exact hinv.procs.setSelf (hinv.procs.ne_embryo hr) nofun rfl fun _ => ⟨hofile, hcwd⟩
  · exact hinv.files.setProc rfl rfl rfl
  · exact hinv.inodes.setProc rfl rfl

theorem triple_wait (hchild : own.child = none) : Moves sb p own (.perform .wait) own := by
  refine .perform rfl trivial ?_
  rintro s g choice hinv rfl _
  show Outcome.Ensures _ _ (exec sb p choice .wait s)
  simp only [exec]
  split
  next hzombie =>
    refine ⟨?_, ?_, hinv.pipes.same rfl rfl, ?_⟩
    · refine hinv.procs.setOther ?_ rfl (fun p' c _ => ?_) ?_ fun _ => ?_
      · rw [hzombie]
        decide
      · exact hinv.procs.child_ne_of_life (by rw [hzombie]; decide) p' c
      · rw [hchild]
        nofun
      · exact hinv.procs.empty _ (.inr hzombie)
    · exact hinv.files.setProc rfl rfl rfl
    · exact hinv.inodes.setProc rfl rfl
  next => rwa [update_eq_self]

theorem triple_forkret : Triple sb p (.atRest none) (.perform .forkret) fun _ own' =>
      ∃ r, own' = .atRest (some r) := by
  refine .performSilent rfl fun s g choice hinv => ?_
  show Outcome.Ensures _ _ (exec sb p choice .forkret s)
  simp only [exec]
  split
  next halive =>
    refine ⟨.atRest (some (s.proc p)), ?_, _, rfl⟩
    have hagain : update g p (.atRest (some (s.proc p))) =
        update (update g p (.atRest none)) p (.atRest (some (s.proc p))) := by
      rw [update_idem]
    rw [hagain]
    have hself : update g p (.atRest none : Own n) p = .atRest none := update_self ..
    refine ⟨hinv.procs.enter rfl halive ?_, hinv.files.same ?_ ?_, hinv.pipes.same ?_ ?_,
      hinv.inodes.same ?_⟩
    iterate 6 rw [hself]; rfl
  next => trivial

end Xv6.Files
