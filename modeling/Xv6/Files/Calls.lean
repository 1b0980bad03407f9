import Xv6.Files.Ops

/-!
# What each system call does to the references

Every call that starts with nothing in hand ends with nothing in hand, on every path.
-/

namespace Xv6.Pipe

open Interleave Function

/-- Operations that keep both ends of the pipe as they are. -/
def KeepsEnds : Op → Prop
  | .close _ => False
  | .kfree => False
  | _ => True

/-- Such an operation keeps both ends. -/
theorem exec_ends {Pid : Type} [DecidableEq Pid] (p : Pid) (choice : Choice) {o : Op}
    (ho : KeepsEnds o) (s : State Pid) :
    (exec p choice o s).Ensures (fun _ => True)
      fun _ s' => s'.readopen = s.readopen ∧ s'.writeopen = s.writeopen := by
  cases o with
  | close w => exact ho.elim
  | kfree => exact ho.elim
  | acquire =>
    simp only [exec]
    split
    · trivial
    · split
      · exact ⟨rfl, rfl⟩
      · split <;> trivial
  | release =>
    simp only [exec]
    split
    · exact ⟨rfl, rfl⟩
    · trivial
  | _ => exact ⟨rfl, rfl⟩

theorem pipewriteFrom_all (n : Int) (left : Nat) : (pipewriteFrom n left).All KeepsEnds := by
  induction left with
  | zero => exact ⟨trivial, fun _ => ⟨trivial, fun _ => trivial⟩⟩
  | succ left ih =>
    refine ⟨trivial, fun full => .ite ?_ ?_⟩
    · refine ⟨trivial, fun closed => ⟨trivial, fun killed => .ite ?_ ?_⟩⟩
      · exact ⟨trivial, fun _ => trivial⟩
      · exact ⟨trivial, fun _ => ⟨trivial, fun _ => trivial⟩⟩
    · refine ⟨trivial, fun byte => ?_⟩
      cases byte with
      | none => exact ⟨trivial, fun _ => ⟨trivial, fun _ => trivial⟩⟩
      | some ch => exact ⟨trivial, fun _ => ih⟩

theorem pipereadFrom_all (n left : Nat) : (pipereadFrom n left).All KeepsEnds := by
  induction left with
  | zero => exact ⟨trivial, fun _ => ⟨trivial, fun _ => trivial⟩⟩
  | succ left ih =>
    refine ⟨trivial, fun empty => .ite ?_ ?_⟩
    · exact ⟨trivial, fun _ => ⟨trivial, fun _ => trivial⟩⟩
    · refine ⟨trivial, fun ch => ⟨trivial, fun copied => .ite ih ?_⟩⟩
      exact ⟨trivial, fun _ => ⟨trivial, fun _ => trivial⟩⟩

theorem pipereadWait_all (n : Int) : (pipereadWait n).All KeepsEnds := by
  refine ⟨trivial, fun empty => .ite ?_ (pipereadFrom_all _ _)⟩
  refine ⟨trivial, fun writeopen => .ite ?_ (pipereadFrom_all _ _)⟩
  exact ⟨trivial, fun killed => .ite ⟨trivial, fun _ => trivial⟩ ⟨trivial, fun _ => trivial⟩⟩

end Xv6.Pipe

namespace Xv6.Files

open Interleave Function

variable {n : Nat} [NeZero n] {sb : Superblock} {p : Fin n} {own : Own n} {r : Proc} {f : FilePtr}
  {pi : PipePtr}

/-! ### Pipes -/

omit [NeZero n] in
/-- An operation on a pipe that keeps both ends open or closed. -/
theorem inv_pipe {s : State n} {g : Fin n → Own n} {o : Pipe.Op} {ps : Pipe.State (Fin n)}
    (hinv : Inv s g) (ho : Pipe.KeepsEnds o)
    (hends : ps.readopen = (s.memory.pipe pi.page).readopen ∧
      ps.writeopen = (s.memory.pipe pi.page).writeopen) :
    Inv { s with memory := s.memory.afterPipe pi ps o } g := by
  have hmem : s.memory.afterPipe pi ps o = s.memory.setPipe pi.page ps := by
    cases o with
    | kfree => exact ho.elim
    | _ => rfl
  refine ⟨hinv.procs, hinv.files, ?_, hinv.inodes⟩
  rw [hmem]
  refine hinv.pipes.congr (fun _ => rfl) rfl rfl rfl fun pi' w => ?_
  unfold Memory.flag Memory.setPipe
  by_cases hpage : pi'.page = pi.page
  · simp only [hpage, update_self, hends.1, hends.2]
  · simp only [update_of_ne hpage]

theorem triple_pipeOp {o : Pipe.Op} (ho : Pipe.KeepsEnds o) :
    Moves sb p own (.perform (.pipe pi o)) own := by
  have hexec : ∀ s g choice, Inv s (update g p own) →
      (exec sb p choice (.pipe pi o) s).Ensures (fun _ => True) fun _ s' =>
        ∃ own', Inv s' (update g p own') ∧ own' = own := by
    intro s g choice hinv
    refine Outcome.ensures_inside.mpr
      ((Pipe.exec_ends p choice.pipe ho _).mono fun result ps hends => ?_)
    exact ⟨own, inv_pipe hinv ho hends, rfl⟩
  cases hsilent : silent (Op.pipe pi o) with
  | true => exact .performSilent hsilent fun s g choice => hexec s g choice
  | false =>
    refine Discipline.Triple.perform hsilent trivial fun s g choice hinv hown _ => ?_
    refine hexec s g choice ?_
    rwa [← hown, update_eq_self]

variable {α : Type}

theorem triple_pipe {prog : Pipe.Code α} (hprog : prog.All Pipe.KeepsEnds) :
    Moves sb p own (liftPipe pi prog) own := by
  refine .of_all (P := fun o => ∃ o', o = Op.pipe pi o' ∧ Pipe.KeepsEnds o') ?_
    (Prog.All.lift (fun o ho => ⟨o, rfl, ho⟩) hprog)
  rintro o ⟨o', rfl, ho⟩
  exact triple_pipeOp ho

/-- The decision of `pipeclose`, taken under the lock of the pipe. -/
theorem triple_pipeDecide {w : Bool} (hw : 0 < own.ends (pi, w)) (hdying : own.dying = none)
    (chan : Pipe.Chan) :
    Triple sb p own (Prog.perform (Op.pipe pi (.close w)) >>= fun _ =>
        Prog.perform (Op.pipe pi (.wakeup chan)) >>= fun _ => Prog.perform (Op.pipe pi .bothClosed))
      fun closed own' => own' = { own with
        ends := own.ends - held (some (pi, w)), dying := if closed then some pi else none } := by
  intro s g hinv
  refine Discipline.wp_silent rfl fun _ => ?_
  refine Discipline.wp_silent rfl fun _ => ?_
  refine Discipline.wp_silent rfl fun _ => ?_
  refine ⟨_, ?_, rfl⟩
  have hself : update g p own p = own := update_self ..
  have hagain : ∀ next, update g p next = update (update g p own) p next := by
    intro next
    rw [update_idem]
  rw [hagain]
  refine ⟨hinv.procs.same ?_ ?_, hinv.files.same ?_ ?_, ?_, hinv.inodes.same ?_⟩
  iterate 4 rw [hself]
  · have hheld : 0 < (update g p own p).ends (pi, w) := by
      rwa [hself]
    refine hinv.pipes.close hheld ?_ rfl rfl rfl ?_ ?_ ?_
    · rwa [hself]
    · intro pi' w'
      unfold Memory.flag
      by_cases hpage : pi'.page = pi.page
      · cases w <;> cases w' <;> simp [Memory.afterPipe, Memory.setPipe, hpage, Pipe.State.close]
      · simp [Memory.afterPipe, Memory.setPipe, hpage]
    · rw [hself]
    · unfold Memory.flag
      cases w with
      | false =>
        cases hopen : (s.memory.pipe pi.page).writeopen <;>
          simp [Memory.afterPipe, Memory.setPipe, Pipe.State.close, hopen]
      | true =>
        cases hopen : (s.memory.pipe pi.page).readopen <;>
          simp [Memory.afterPipe, Memory.setPipe, Pipe.State.close, hopen]
  · rw [hself]

theorem triple_kfree (hdying : own.dying = some pi) :
    Moves sb p own (.perform (.pipe pi .kfree)) { own with dying := none } := by
  refine .perform rfl trivial ?_
  rintro s g choice hinv rfl _
  refine ⟨hinv.procs.same rfl rfl, hinv.files.same rfl rfl, ?_, hinv.inodes.same rfl⟩
  refine hinv.pipes.kfree hdying rfl rfl rfl (fun pi' w => ?_) rfl rfl
  unfold Memory.flag
  by_cases hpage : pi'.page = pi.page
  · simp [Memory.afterPipe, Memory.setPipe, Memory.kfree, hpage]
  · simp [Memory.afterPipe, Memory.setPipe, Memory.kfree, hpage]

/-- The end is closed, and the pipe freed if it was the last. -/
theorem triple_pipeclose {w : Bool} (hw : 0 < own.ends (pi, w)) (hdying : own.dying = none) :
    Moves sb p own (pipeclose pi w) { own with ends := own.ends - held (some (pi, w)) } := by
  have hprog : (pipeclose pi w : Code n Unit) = Prog.perform (Op.pipe pi .acquire) >>= fun _ =>
        (Prog.perform (Op.pipe pi (.close w)) >>= fun _ =>
          Prog.perform (Op.pipe pi (.wakeup (if w then .nread else .nwrite))) >>= fun _ =>
            Prog.perform (Op.pipe pi .bothClosed)) >>= fun closed =>
          liftPipe pi (Pipe.pipecloseFree closed) >>= fun _ => pure () := rfl
  rw [hprog]
  refine .seq (triple_pipeOp trivial) ?_
  refine .bind_eq (triple_pipeDecide hw hdying _) fun closed => ?_
  cases closed with
  | false =>
    refine .bind_eq (triple_pipe ⟨trivial, fun _ => trivial⟩) fun _ => .ret ?_
    simp [hdying]
  | true =>
    show Triple sb p _ (Prog.perform (Op.pipe pi .release) >>= fun _ =>
      Prog.perform (Op.pipe pi .kfree) >>= fun _ => pure ()) _
    refine .seq (triple_pipeOp trivial) ?_
    refine .seq (triple_kfree rfl) (.ret ?_)
    simp [hdying]

theorem triple_kalloc : Triple sb p own (.perform .kalloc) fun (found : Option PipePtr) own' =>
      match found with
      | none => own' = own
      | some pi => own' = { own with
          ends := own.ends + held (some (pi, false)) + held (some (pi, true)) } := by
  refine .perform rfl trivial ?_
  rintro s g choice hinv rfl _
  show Outcome.Ensures _ _ (exec sb p choice .kalloc s)
  simp only [exec]
  split
  next hpage =>
    refine ⟨_, ?_, rfl⟩
    exact ⟨hinv.procs.same rfl rfl, hinv.files.same rfl rfl, hinv.pipes.kalloc hpage rfl rfl,
      hinv.inodes.same rfl⟩
  next =>
    refine ⟨g p, ?_, rfl⟩
    rwa [update_eq_self]

/-! ### Open files -/

theorem triple_fs {prog : Fs.Code α} (hprog : prog.All Fs.KeepsRefs) :
    Moves sb p own (liftFs prog) own := by
  have hquiet : RefTriple sb p own own.inodes prog fun _ => own.inodes := .quiet hprog
  exact hquiet

/-- What the file held is given back. -/
theorem triple_filecloseLast {ff : File} (hff : 0 < ff.ref) (hends : own.ends = 0)
    (hdying : own.dying = none) :
    Triple sb p { own with
        ends := own.ends + held ff.endOf, inodes := own.inodes + held ff.inodeOf }
      (filecloseLast ff) fun _ own' => own' = own := by
  have hput : ∀ ip, RefTriple sb p own (own.inodes + held (some ip)) (Fs.iput ip)
      fun _ => own.inodes := by
    intro ip
    refine (refs_iput ip).congr fun _ => ?_
    exact add_sub_cancel_right _ _
  unfold filecloseLast
  cases htype : ff.type with
  | FD_NONE =>
    refine .ret ?_
    simp [File.endOf, File.inodeOf, htype]
  | FD_PIPE =>
    have hend : ff.endOf = some (ff.pipe, ff.writable) := by simp [File.endOf, htype, hff]
    have hno : ff.inodeOf = none := by simp [File.inodeOf, htype]
    rw [hend, hno, held_none, add_zero]
    let start : Own n := { own with ends := own.ends + held (some (ff.pipe, ff.writable)) }
    have hpos : 0 < start.ends (ff.pipe, ff.writable) := by simp [start, hends]
    have hstart : start.dying = none := hdying
    refine (triple_pipeclose hpos hstart).mono fun _ own' hown => ?_
    rw [hown]
    simp [start]
  | FD_INODE | FD_DEVICE =>
    have hend : ff.endOf = none := by simp [File.endOf, htype]
    have hip : ff.inodeOf = some ff.ip := by simp [File.inodeOf, htype, hff]
    rw [hend, hip, held_none, add_zero]
    exact hput ff.ip

/-- `fileclose` gives up one reference, and whatever the file held with the last one. -/
theorem triple_fileclose (hr : own.proc = some r) (hshare : 1 ≤ own.share r f)
    (hends : own.ends = 0) (hdying : own.dying = none) :
    Moves sb p own (fileclose f) { own with
      files := own.files - held (some f), fresh := own.fresh.filter (· ≠ f) } := by
  refine .bind (triple_filecloseOp hr hshare) ?_
  rintro last own₁ ⟨hpos, rfl⟩
  cases last with
  | none =>
    refine .ret ?_
    simp [Own.closed]
  | some ff =>
    let next : Own n := { own with
      files := own.files - held (some f), fresh := own.fresh.filter (· ≠ f) }
    have hnext : next.ends = 0 := hends
    exact triple_filecloseLast (hpos ff rfl) hnext hdying

/-- A process that runs a call and has nothing in its hands. -/
def Resting (label : Label) (own : Own n) : Prop :=
  (∃ result, label = .user result) ∧ ∃ r, own = .atRest (some r)

omit [NeZero n] in
theorem resting_user (result : Int) (r : Proc) :
    Resting (.user result) (Own.atRest (some r) : Own n) :=
  ⟨⟨result, rfl⟩, r, rfl⟩

/-- A call by a process that has nothing in its hands. -/
abbrev CallTriple {α : Type} (sb : Superblock) (p : Fin n) (r : Proc) (prog : Code n α)
    (post : α → Own n → Prop) : Prop :=
  (discipline n sb).Triple p (.atRest (some r)) prog post

variable {fd : Int}

/-- A call on a descriptor fails, or has its file. -/
theorem triple_argfd {body : Fd → FilePtr → Code n Label} {post : Label → Own n → Prop}
    (hbad : post (.user (-1)) (.atRest (some r)))
    (hbody : ∀ fd f, r.ofile fd = some f → CallTriple sb p r (body fd f) post) :
    CallTriple sb p r (argfd fd body) post := by
  unfold argfd
  split
  · refine .bind (triple_ofile rfl) ?_
    rintro found own' ⟨hfound, rfl⟩
    cases found with
    | none => exact .ret hbad
    | some f => exact hbody _ f hfound.symm
  · exact .ret hbad

/-- The new descriptor is there before its reference is counted. -/
theorem triple_sysDup : CallTriple sb p r (sysDup fd) Resting := by
  refine triple_argfd (resting_user _ r) fun fd f hf => ?_
  refine .bind (triple_fdalloc rfl) fun found own₁ hfound => ?_
  cases found with
  | none =>
    obtain rfl := hfound
    exact .ret (resting_user _ r)
  | some fd' =>
    obtain ⟨hfree, rfl⟩ := hfound
    have hshare : (1 : Int) ≤ tally (r.setFd fd' (some f)).ofile f + (0 - held (some f) f) := by
      have hpos := tally_pos hf
      rw [tally_ofile_setFd, hfree, held_none, held_self, Pi.zero_apply]
      omega
    refine .seq (triple_filedup rfl List.not_mem_nil hshare) <|
      .ret ⟨⟨_, rfl⟩, r.setFd fd' (some f), ?_⟩
    simp [Own.atRest]

theorem triple_sysClose : CallTriple sb p r (sysClose fd) Resting := by
  refine triple_argfd (resting_user _ r) fun fd f hf => ?_
  refine .seq (triple_clearFd rfl) ?_
  rw [hf]
  have hshare : (1 : Int) ≤ tally (r.setFd fd none).ofile f + (0 + held (some f) f) := by
    rw [held_self]
    omega
  refine .seq (triple_fileclose rfl hshare rfl rfl) <| .ret ⟨⟨_, rfl⟩, r.setFd fd none, ?_⟩
  simp [Own.atRest]

/-! ### Reading and writing -/

/-- A process at rest after reading or writing: in user space or asleep in a pipe. -/
def AtRest (label : Label) (own : Own n) : Prop :=
  ((∃ result, label = .user result) ∨ ∃ pi point, label = .inPipe pi point) ∧
    ∃ r, own = .atRest (some r)

omit [NeZero n] in
theorem atRest_user (result : Int) (r : Proc) :
    AtRest (.user result) (Own.atRest (some r) : Own n) :=
  ⟨.inl ⟨result, rfl⟩, r, rfl⟩

/-- In the pipe's code, a process has nothing in its hands. -/
theorem triple_runPipe {prog : Pipe.Code Pipe.Label} (hprog : prog.All Pipe.KeepsEnds) :
    CallTriple sb p r (runPipe pi prog) AtRest := by
  refine .bind_eq (triple_pipe hprog) fun point => .ret ?_
  cases point with
  | user result => exact atRest_user result r
  | writing k left => exact ⟨.inr ⟨pi, _, rfl⟩, r, rfl⟩
  | reading k => exact ⟨.inr ⟨pi, _, rfl⟩, r, rfl⟩

theorem triple_devsw {major : BitVec 16} : CallTriple sb p r (devsw major) AtRest := by
  unfold devsw
  split
  · exact .ret (atRest_user _ r)
  · exact .bind_eq triple_device fun k => .ret (atRest_user k r)

variable {ip : InodePtr} {copyout : Fs.Copyout} {len : Int}

theorem triple_filereadInode : CallTriple sb p r (filereadInode sb f ip copyout len) AtRest := by
  refine .seq (triple_fs (Fs.ilock_all ip)) ?_
  refine .bind_eq triple_file fun file => ?_
  refine .bind_eq (triple_fs (Fs.readi_all sb ip _ _ _)) ?_
  rintro ⟨k, bytes⟩
  dsimp only
  split
  · refine .seq triple_addOff ?_
    exact .seq (triple_fs (.perform trivial)) (.ret (atRest_user k r))
  · exact .seq (triple_fs (.perform trivial)) (.ret (atRest_user k r))

theorem triple_fileread : CallTriple sb p r (fileread sb f copyout len) AtRest := by
  refine .bind_eq triple_file fun file => ?_
  split
  · exact .ret (atRest_user _ r)
  · split
    · exact triple_runPipe ⟨trivial, fun _ => Pipe.pipereadWait_all len⟩
    · exact triple_devsw
    · exact triple_filereadInode
    · exact triple_stop

variable {src : Fs.Copyin}

theorem triple_filewriteChunk {i n1 : Nat} :
    Moves sb p own (filewriteChunk sb f ip src i n1) own := by
  refine .seq (triple_fs (Fs.ilock_all ip)) ?_
  refine .bind_eq triple_file fun file => ?_
  refine .bind_eq (triple_fs (Fs.writei_all sb ip _ _ _)) fun k => ?_
  split
  · refine .seq triple_addOff ?_
    exact .seq (triple_fs (.perform trivial)) (.ret rfl)
  · exact .seq (triple_fs (.perform trivial)) (.ret rfl)

theorem triple_filewriteFrom {len : Nat} (fuel i : Nat) :
    Moves sb p own (filewriteFrom sb f ip src len fuel i) own := by
  induction fuel generalizing i with
  | zero => exact .ret rfl
  | succ fuel ih =>
    simp only [filewriteFrom]
    split
    · refine .bind_eq triple_filewriteChunk fun k => ?_
      split
      · exact .ret rfl
      · split
        · exact triple_stop
        · exact ih _
    · exact .ret rfl

theorem triple_filewrite : CallTriple sb p r (filewrite sb f src len) AtRest := by
  refine .bind_eq triple_file fun file => ?_
  split
  · exact .ret (atRest_user _ r)
  · split
    · exact triple_runPipe ⟨trivial, fun _ => Pipe.pipewriteFrom_all len _⟩
    · exact triple_devsw
    · exact .bind_eq (triple_filewriteFrom _ _) fun i => .ret (atRest_user _ r)
    · exact triple_stop

theorem triple_filestat : CallTriple sb p r (filestat f) Resting := by
  refine .bind_eq triple_file fun file => ?_
  split
  · refine .seq (triple_fs (Fs.ilock_all _)) ?_
    refine .seq (triple_fs (.perform trivial)) ?_
    refine .seq (triple_fs (.perform trivial)) ?_
    exact .bind_eq triple_succeeds fun copied => .ret (resting_user _ r)
  · exact .ret (resting_user _ r)

/-! ### Creating a pipe -/

/-- A process with references to two files in its hands. -/
def Own.withTwo (r : Proc) (rf wf : FilePtr) : Own n :=
  { Own.atRest (some r) with files := held (some rf) + held (some wf) }

variable {rf wf : FilePtr} {post : α → Own n → Prop}

/-- Both files of a pipe are closed on the error paths. -/
theorem triple_closeTwo {rest : Code n α}
    {fresh : List FilePtr} (hfresh : ∀ t ∈ fresh, t = rf ∨ t = wf)
    (hrest : Triple sb p (.atRest (some r)) rest post) :
    Triple sb p { Own.withTwo r rf wf with fresh := fresh }
      (fileclose rf >>= fun _ => fileclose wf >>= fun _ => rest) post := by
  have hshare : (1 : Int) ≤ tally r.ofile rf + (held (some rf) + held (some wf)) rf := by
    have := held_nonneg (some wf) rf
    rw [Pi.add_apply, held_self]
    omega
  refine .seq (triple_fileclose rfl hshare rfl rfl) ?_
  have hshare' : (1 : Int) ≤ tally r.ofile wf +
      (held (some rf) + held (some wf) - held (some rf)) wf := by
    rw [add_sub_cancel_left, held_self]
    omega
  refine .seq (triple_fileclose rfl hshare' rfl rfl) ?_
  have hnil : (fresh.filter (· ≠ rf)).filter (· ≠ wf) = [] := by
    rw [List.filter_eq_nil_iff]
    intro t ht
    obtain ⟨htmem, htrf⟩ := List.mem_filter.mp ht
    rcases hfresh t htmem with rfl | rfl
    · simp at htrf
    · simp
  have hown : ({ Own.withTwo r rf wf with
      files := held (some rf) + held (some wf) - held (some rf) - held (some wf)
      fresh := (fresh.filter (· ≠ rf)).filter (· ≠ wf) } : Own n) = .atRest (some r) := by
    rw [hnil, add_sub_cancel_left, sub_self]
    rfl
  rwa [← hown] at hrest

/-- Both files, or nothing. -/
theorem triple_pipealloc : CallTriple sb p r pipealloc fun found own' =>
      match found with
      | none => own' = .atRest (some r)
      | some (rf, wf) => own' = .withTwo r rf wf := by
  refine .bind triple_filealloc fun found own₁ hfound => ?_
  cases found with
  | none => exact .ret hfound
  | some f0 =>
    obtain ⟨-, rfl⟩ := hfound
    refine .bind triple_filealloc fun found own₂ hfound => ?_
    cases found with
    | none =>
      obtain rfl := hfound
      have hshare : (1 : Int) ≤ tally r.ofile f0 + (0 + held (some f0)) f0 := by
        rw [zero_add, held_self]
        omega
      refine .seq (triple_fileclose rfl hshare rfl rfl) <| .ret ?_
      simp [Own.atRest]
    | some f1 =>
      obtain ⟨hnew, rfl⟩ := hfound
      have hne : f1 ≠ f0 := fun heq => hnew (by simp [heq])
      refine .bind triple_kalloc fun found own₃ hfound => ?_
      cases found with
      | none =>
        obtain rfl := hfound
        have hown : ({ Own.atRest (some r) with
            files := 0 + held (some f0) + held (some f1), fresh := [f1, f0] } : Own n) =
            { Own.withTwo r f0 f1 with fresh := [f1, f0] } := by
          rw [zero_add]
          rfl
        show Triple sb p ({ Own.atRest (some r) with
          files := 0 + held (some f0) + held (some f1), fresh := [f1, f0] } : Own n) _ _
        rw [hown]
        refine triple_closeTwo (fun t ht => ?_) (.ret rfl)
        simpa [or_comm] using ht
      | some pi =>
        obtain rfl := hfound
        refine .seq (triple_openPipe ?_ ?_) ?_
        · simp
        · simp [Own.atRest, held]
        refine .seq (triple_openPipe ?_ ?_) (.ret ?_)
        · simp [hne]
        · simp [Own.atRest, held]
        · simp [Own.withTwo, Own.atRest, hne]

theorem triple_sysPipeBad : Triple sb p (.withTwo r rf wf) (sysPipeBad rf wf) Resting :=
  triple_closeTwo (fun _ (ht : _ ∈ []) => absurd ht List.not_mem_nil) (.ret (resting_user _ r))

theorem triple_sysPipeCopy {fd0 fd1 : Fd} (hrf : r.ofile fd0 = some rf)
    (hwf : r.ofile fd1 = some wf) (hne : fd1 ≠ fd0) :
    CallTriple sb p r (sysPipeCopy rf wf fd0 fd1) Resting := by
  refine .bind_eq triple_succeeds fun copied => ?_
  split
  · exact .ret (resting_user _ r)
  · refine .seq (triple_clearFd rfl) ?_
    refine .seq (triple_clearFd rfl) ?_
    have hslot : (r.setFd fd0 none).ofile fd1 = some wf := by
      simpa [Proc.setFd, hne] using hwf
    rw [hrf, hslot]
    show Triple sb p ({ Own.atRest (some ((r.setFd fd0 none).setFd fd1 none)) with
      files := 0 + held (some rf) + held (some wf) } : Own n) _ _
    rw [zero_add]
    exact triple_sysPipeBad

/-- On every error path, descriptors are cleared and files closed. -/
theorem triple_sysPipe : CallTriple sb p r sysPipe Resting := by
  refine .bind triple_pipealloc fun found own₁ hfound => ?_
  match found with
  | none =>
    obtain rfl := hfound
    exact .ret (resting_user _ r)
  | some (rf, wf) =>
    obtain rfl := hfound
    refine .bind (triple_fdalloc rfl) fun found own₂ hfound => ?_
    cases found with
    | none =>
      obtain rfl := hfound
      exact triple_sysPipeBad
    | some fd0 =>
      obtain ⟨hfree0, rfl⟩ := hfound
      refine .bind (triple_fdalloc rfl) fun found own₃ hfound => ?_
      cases found with
      | none =>
        obtain rfl := hfound
        refine .seq (triple_clearFd rfl) ?_
        have hslot : (r.setFd fd0 (some rf)).ofile fd0 = some rf := by simp [Proc.setFd]
        rw [hslot]
        rw [sub_add_cancel]
        exact triple_sysPipeBad
      | some fd1 =>
        obtain ⟨hfree1, rfl⟩ := hfound
        have hne : fd1 ≠ fd0 := by
          rintro rfl
          simp [Proc.setFd] at hfree1
        show Triple sb p ({ Own.atRest (some ((r.setFd fd0 (some rf)).setFd fd1 (some wf))) with
          files := held (some rf) + held (some wf) - held (some rf) - held (some wf) } : Own n) _ _
        rw [add_sub_cancel_left, sub_self]
        refine triple_sysPipeCopy ?_ ?_ hne
        · simp [Proc.setFd, hne.symm]
        · simp [Proc.setFd]

/-! ### Opening -/

theorem triple_withCwd {body : InodePtr → Fs.Code α} {next : α → InodePtr → Int}
    (hr : own.proc = some r)
    (hbody : ∀ cwd, r.cwd = some cwd → RefTriple sb p own own.inodes (body cwd) next) :
    Triple sb p own (withCwd body) fun result own' =>
      own' = own.withInodes (next result) := by
  refine .bind (triple_cwd hr) ?_
  rintro cwd own' ⟨hcwd, rfl⟩
  exact hbody cwd hcwd

theorem triple_fsCall {body : InodePtr → Fs.Code Int}
    (hbody : ∀ cwd, RefTriple sb p (.atRest (some r)) 0 (body cwd) fun _ => 0) :
    CallTriple sb p r (fsCall body) Resting :=
  Discipline.Triple.bind_eq (triple_withCwd rfl fun cwd _ => hbody cwd) fun k =>
    .ret (resting_user k r)

theorem triple_iunlockput_back {value : α} (hpost : post value (.atRest (some r))) :
    Triple sb p ((Own.atRest (some r)).withInodes (held (some ip)))
      (liftFs (Fs.iunlockput ip) >>= fun _ => .ret value) post := by
  have hput : RefTriple sb p (.atRest (some r)) (held (some ip)) (Fs.iunlockput ip) fun _ => 0 := by
    refine (refs_iunlockput ip).congr fun _ => ?_
    exact sub_self _
  exact .seq hput (.ret hpost)

/-- A process drops the reference to its current directory, which it still has. -/
theorem triple_iputCwd (hr : own.proc = some r) : Triple sb p own (withCwd Fs.iput) fun _ own' =>
      ∃ cwd, r.cwd = some cwd ∧ own' = own.withInodes (own.inodes - held (some cwd)) := by
  refine .bind (triple_cwd hr) ?_
  rintro cwd own' ⟨hcwd, rfl⟩
  have hput : RefTriple sb p own' own'.inodes (Fs.iput cwd) fun _ =>
      own'.inodes - held (some cwd) := refs_iput cwd
  exact .mono hput fun _ _ hown => ⟨cwd, hcwd, hown⟩

variable {omode : BitVec 32}

/-- The inode is in the file, or given back. -/
theorem triple_sysOpenFile {d : Dinode} :
    Triple sb p ((Own.atRest (some r)).withInodes (held (some ip)))
      (sysOpenFile ip d omode) Resting := by
  refine .bind triple_filealloc fun found own₁ hfound => ?_
  cases found with
  | none =>
    obtain rfl := hfound
    exact triple_iunlockput_back (resting_user _ r)
  | some f =>
    obtain ⟨-, rfl⟩ := hfound
    refine .bind (triple_fdalloc rfl) fun found own₂ hfound => ?_
    cases found with
    | none =>
      obtain rfl := hfound
      have hshare : (1 : Int) ≤ tally r.ofile f + (0 + held (some f)) f := by
        rw [zero_add, held_self]
        omega
      refine .seq (triple_fileclose rfl hshare rfl rfl) ?_
      have hown : ({ (Own.atRest (some r)).withInodes (held (some ip)) with
          files := 0 + held (some f) - held (some f), fresh := [f].filter (· ≠ f) } : Own n) =
          (Own.atRest (some r)).withInodes (held (some ip)) := by
        simp [Own.atRest, Own.withInodes]
      show Triple sb p ({ (Own.atRest (some r)).withInodes (held (some ip)) with
          files := 0 + held (some f) - held (some f), fresh := [f].filter (· ≠ f) } : Own n) _ _
      rw [hown]
      exact triple_iunlockput_back (resting_user _ r)
    | some fd =>
      obtain ⟨-, rfl⟩ := hfound
      refine .seq (triple_openInode List.mem_cons_self) ?_
      refine .seq (triple_fs (.perform trivial)) <| .ret ⟨⟨_, rfl⟩, r.setFd fd (some f), ?_⟩
      simp [Own.atRest, Own.withInodes]

variable {path : List UInt8}

theorem triple_sysOpen : CallTriple sb p r (sysOpen sb path omode) Resting := by
  refine .bind_eq (triple_withCwd rfl fun cwd _ => refs_sysOpenInode cwd path omode) fun found => ?_
  cases found with
  | none =>
    refine .ret ⟨⟨_, rfl⟩, r, ?_⟩
    simp [Own.atRest, Own.withInodes]
  | some ip =>
    show Triple sb p ((Own.atRest (some r)).withInodes (0 + held (some ip))) _ _
    rw [zero_add]
    refine .bind_eq (triple_fs (.perform trivial)) fun d => ?_
    split
    · exact triple_iunlockput_back (resting_user _ r)
    · exact triple_sysOpenFile

theorem triple_sysChdir : CallTriple sb p r (sysChdir sb path) Resting := by
  refine .bind_eq (triple_withCwd rfl fun cwd _ => refs_sysChdirInode cwd path) fun found => ?_
  cases found with
  | none =>
    refine .ret ⟨⟨_, rfl⟩, r, ?_⟩
    simp [Own.atRest, Own.withInodes]
  | some ip =>
    refine .bind (triple_iputCwd rfl) ?_
    rintro _ own' ⟨cwd, hcwd, rfl⟩
    refine .seq (triple_setCwd rfl) <| .ret ⟨⟨_, rfl⟩, { r with cwd := some ip }, ?_⟩
    simp [Own.atRest, Own.withInodes, hcwd]

/-! ### Executing -/

theorem triple_loadsegFrom {offset sz : Nat} (fuel i : Nat) :
    Moves sb p own (loadsegFrom sb ip offset sz fuel i) own := by
  induction fuel generalizing i with
  | zero => exact .ret rfl
  | succ fuel ih =>
    simp only [loadsegFrom]
    split
    · refine .bind_eq triple_succeeds fun mapped => ?_
      split
      · refine .bind_eq (triple_fs (Fs.readi_all sb ip _ _ _)) fun result => ?_
        split
        · exact .ret rfl
        · exact ih _
      · exact triple_stop
    · exact .ret rfl

theorem triple_execSegment {ph : List Nat} : Moves sb p own (execSegment sb ip ph) own := by
  unfold execSegment
  dsimp only
  split
  · exact .ret rfl
  · split
    · exact .ret rfl
    · refine .bind_eq triple_succeeds fun allocated => ?_
      split
      · exact .ret rfl
      · exact triple_loadsegFrom _ _

theorem triple_execSegments (left off : Nat) :
    Moves sb p own (execSegments sb ip left off) own := by
  induction left generalizing off with
  | zero => exact .ret rfl
  | succ left ih =>
    refine .bind_eq (triple_fs (Fs.readi_all sb ip _ _ _)) fun result => ?_
    dsimp only
    split
    · exact .ret rfl
    · refine .bind_eq triple_execSegment fun loaded => ?_
      split
      · exact ih _
      · exact .ret rfl

theorem triple_execLoad : Moves sb p own (execLoad sb ip) own := by
  refine .bind_eq (triple_fs (Fs.readi_all sb ip _ _ _)) fun result => ?_
  dsimp only
  split
  · exact .ret rfl
  · refine .bind_eq triple_succeeds fun pagetable => ?_
    split
    · exact triple_execSegments _ _
    · exact .ret rfl

theorem triple_execFile {argc : Nat} : CallTriple sb p r (execFile sb path argc) Resting := by
  refine .bind_eq (triple_withCwd rfl fun cwd _ => refs_namei cwd path) fun found => ?_
  cases found with
  | none =>
    refine .ret ⟨⟨_, rfl⟩, r, ?_⟩
    simp [Own.atRest, Own.withInodes]
  | some ip =>
    refine .seq (triple_fs (Fs.ilock_all ip)) ?_
    refine .bind_eq triple_execLoad fun loaded => ?_
    have hput : RefTriple sb p (.atRest (some r)) (0 + held (some ip)) (Fs.iunlockput ip)
        fun _ => 0 := by
      refine (refs_iunlockput ip).congr fun _ => ?_
      exact add_sub_cancel_right _ _
    refine .seq hput ?_
    split
    · exact .bind_eq triple_succeeds fun built => .ret (resting_user _ r)
    · exact .ret (resting_user _ r)

theorem triple_sysExec {argc : Nat} : CallTriple sb p r (sysExec sb path argc) Resting := by
  refine .bind_eq triple_succeeds fun copied => ?_
  split
  · exact triple_execFile
  · exact .ret (resting_user _ r)

/-! ### Processes -/

/-- A process that fills the entry `q` of the process table. -/
def Own.parent (r : Proc) (q : Fin n) (c : Proc) : Own n :=
  { (Own.atRest (some r) : Own n) with child := some (q, c) }

/-- An entry of the process table that holds nothing. -/
def Proc.blank : Proc := ⟨.embryo, fun _ => none, none⟩

theorem triple_allocprocFrom (qs : List (Fin n)) :
    CallTriple sb p r (allocprocFrom qs) fun found own' =>
      match found with
      | none => own' = .atRest (some r)
      | some q => q ≠ p ∧ own' = .parent r q .blank := by
  induction qs with
  | nil => exact .ret rfl
  | cons q rest ih =>
    refine .bind (triple_allocproc rfl) fun unused own' hunused => ?_
    cases unused with
    | false =>
      obtain rfl := hunused
      exact ih
    | true => exact .ret hunused

theorem triple_allocprocAll : CallTriple sb p r allocproc fun found own' =>
      match found with
      | none => own' = .atRest (some r)
      | some q => q ≠ p ∧ own' = .parent r q .blank := by
  refine .bind (triple_allocprocFrom _) fun found own' hfound => ?_
  cases found with
  | none => exact .ret hfound
  | some q =>
    obtain ⟨hne, rfl⟩ := hfound
    refine .bind_eq triple_succeeds fun tf => ?_
    split
    · exact .ret ⟨hne, rfl⟩
    · exact .seq (triple_freeproc rfl rfl rfl) (.ret rfl)

theorem Proc.setFd_none {c : Proc} {fd : Fd} (h : c.ofile fd = none) : c.setFd fd none = c := by
  rw [setFd, ← h, update_eq_self]

variable {q : Fin n}

/-- The child gets a copy of one descriptor. -/
theorem triple_forkFile {c : Proc} {fd : Fd} (hne : q ≠ p) (hfree : c.ofile fd = none) :
    Triple sb p (.parent r q c) (forkFile q fd) fun _ own' =>
      ∃ v, own' = .parent r q (c.setFd fd v) := by
  refine .bind (triple_ofile rfl) ?_
  rintro found own' ⟨hfound, rfl⟩
  cases found with
  | none =>
    refine .ret ⟨none, ?_⟩
    rw [Proc.setFd_none hfree]
  | some f =>
    have hpos := tally_pos hfound.symm
    have hshare : (1 : Int) ≤ tally r.ofile f + (0 : FilePtr → Int) f := by
      rw [Pi.zero_apply]
      omega
    refine .seq (triple_filedup rfl List.not_mem_nil hshare) ?_
    have hmore : (1 : Int) < tally r.ofile f + (0 + held (some f)) f := by
      rw [zero_add, held_self]
      omega
    refine .mono (triple_setChildFd rfl rfl hne hfree hmore) fun _ own' hown => ?_
    refine ⟨some f, ?_⟩
    rw [hown]
    simp [Own.parent, Own.atRest]

/-- The loop of `fork`: descriptors that are still to be copied are empty in the child. -/
theorem triple_forkFiles (hne : q ≠ p) (fds : List Fd) (hnodup : fds.Nodup) (c : Proc)
    (hcwd : c.cwd = none) (hfree : ∀ fd ∈ fds, c.ofile fd = none) :
    Triple sb p (.parent r q c) (forEach fds (forkFile q)) fun _ own' =>
      ∃ c', c'.cwd = none ∧ own' = .parent r q c' := by
  induction fds generalizing c with
  | nil => exact .ret ⟨c, hcwd, rfl⟩
  | cons fd rest ih =>
    obtain ⟨hfd, hrest⟩ := List.nodup_cons.mp hnodup
    refine .bind (triple_forkFile hne (hfree fd List.mem_cons_self)) ?_
    rintro _ own' ⟨v, rfl⟩
    refine ih hrest (c.setFd fd v) hcwd fun fd' hfd' => ?_
    have hother : fd' ≠ fd := ne_of_mem_of_not_mem hfd' hfd
    simpa [Proc.setFd, hother] using hfree fd' (List.mem_cons_of_mem _ hfd')

theorem triple_forkShare (hne : q ≠ p) :
    Triple sb p (.parent r q .blank) (forkShare q) Resting := by
  refine .bind (triple_forkFiles hne _ (List.nodup_finRange _) .blank rfl fun _ _ => rfl) ?_
  rintro _ own' ⟨c, hcwd, rfl⟩
  refine .bind_eq (triple_withCwd rfl fun cwd _ => refs_idup cwd) fun ip => ?_
  refine .seq (triple_setChildCwd rfl hcwd) ?_
  refine .seq (triple_setRunnable rfl) (.ret ⟨⟨_, rfl⟩, r, ?_⟩)
  simp [Own.parent, Own.atRest, Own.withInodes]

theorem triple_fork : CallTriple sb p r fork Resting := by
  refine .bind triple_allocprocAll fun found own' hfound => ?_
  cases found with
  | none =>
    obtain rfl := hfound
    exact .ret (resting_user _ r)
  | some q =>
    obtain ⟨hne, rfl⟩ := hfound
    refine .bind_eq triple_succeeds fun copied => ?_
    split
    · exact triple_forkShare hne
    · refine .seq (triple_freeproc rfl rfl rfl) ?_
      exact .ret (resting_user _ r)

/-- The file is closed before its descriptor is cleared. -/
theorem triple_exitFile {fd : Fd} : Moves sb p (.atRest (some r)) (exitFile fd)
      (.atRest (some (r.setFd fd none))) := by
  refine .bind (triple_ofile rfl) ?_
  rintro found own' ⟨hfound, rfl⟩
  cases found with
  | none =>
    refine .ret ?_
    rw [Proc.setFd_none hfound.symm]
  | some f =>
    have hpos := tally_pos hfound.symm
    have hshare : (1 : Int) ≤ tally r.ofile f + (0 : FilePtr → Int) f := by
      rw [Pi.zero_apply]
      omega
    refine .seq (triple_fileclose rfl hshare rfl rfl) ?_
    refine .mono (triple_clearFd rfl) fun _ own' hown => ?_
    rw [hown, ← hfound]
    simp [Own.atRest]

/-- The loop of `exit` closes the descriptors it goes through. -/
theorem triple_exitFiles (fds : List Fd) (r : Proc) :
    CallTriple sb p r (forEach fds exitFile) fun _ own' =>
      ∃ r', (∀ fd, r'.ofile fd = if fd ∈ fds then none else r.ofile fd) ∧
        own' = .atRest (some r') := by
  induction fds generalizing r with
  | nil => exact .ret ⟨r, fun _ => by simp, rfl⟩
  | cons fd rest ih =>
    refine .seq triple_exitFile ?_
    refine .mono (ih (r.setFd fd none)) ?_
    rintro _ own' ⟨r', hr', rfl⟩
    refine ⟨r', fun fd' => ?_, rfl⟩
    rw [hr' fd']
    rcases eq_or_ne fd' fd with rfl | hne
    · simp [Proc.setFd]
    · simp [Proc.setFd, hne]

/-- `exit` leaves nothing open. -/
theorem triple_exit : CallTriple sb p r (exit p) fun label own' =>
      label = .unborn ∧ own' = .atRest none := by
  unfold exit
  split
  · exact triple_stop
  · refine .bind (triple_exitFiles _ r) ?_
    rintro _ own' ⟨r', hr', rfl⟩
    have hofile : r'.ofile = fun _ => none := by
      funext fd
      rw [hr' fd, if_pos (List.mem_finRange fd)]
    refine .bind (triple_iputCwd rfl) ?_
    rintro _ own' ⟨cwd, hcwd, rfl⟩
    refine .seq (triple_setCwd rfl) ?_
    refine .seq (triple_setZombie rfl hofile rfl) (.ret ⟨rfl, ?_⟩)
    simp [Own.atRest, Own.withInodes, hcwd]

end Xv6.Files
