import Xv6.Files.Calls

/-!
# Reference counts balance in every run

`open_files_counted` is about open files and pipes, `inode_refs_counted` about the inode cache. Both
speak about every configuration of every run in which all processes are outside the kernel or asleep
in a pipe, whatever calls the processes have made and however these have failed.
-/

namespace Xv6.Files

open Interleave Finset Discipline Machine

variable {n : Nat} {sb : Superblock} {p : Fin n} {r : Proc} {label : Label} {own : Own n}
  {refs : List InodePtr} {file : FilePtr → File} {g : Fin n → Own n} {m : Memory n}

/-! ### Consequences of the invariant -/

theorem idle_of_resting (h : Resting label own) : idle p label own := by
  obtain ⟨⟨result, rfl⟩, hown⟩ := h
  exact hown

theorem idle_of_atRest (h : AtRest label own) : idle p label own := by
  obtain ⟨⟨result, rfl⟩ | ⟨pi, point, rfl⟩, hown⟩ := h
  · exact hown
  · exact hown

theorem refs_cons (ip : InodePtr) (refs : List InodePtr) :
    Own.refs refs + held (some ip) = Own.refs (ip :: refs) := by
  funext ip'
  simp only [Own.refs, held, Pi.add_apply, List.count_cons, beq_iff_eq, Option.some.injEq]
  split <;> simp

theorem refs_erase {ip : InodePtr} (h : ip ∈ refs) :
    Own.refs refs - held (some ip) = Own.refs (refs.erase ip) := by
  have hpos := List.count_pos_iff.mpr h
  funext ip'
  simp only [Own.refs, held, Pi.sub_apply, Option.some.injEq]
  rcases eq_or_ne ip ip' with rfl | hne
  · rw [List.count_erase_self, if_pos rfl]
    omega
  · rw [List.count_erase_of_ne hne.symm, if_neg hne]
    omega

/-- A descriptor of some process refers to an end of the pipe `pi`. -/
def State.HasDescriptor (s : State n) (pi : PipePtr) : Prop :=
  ∃ q fd f, (s.proc q).ofile fd = some f ∧ (s.file f).type = .FD_PIPE ∧ (s.file f).pipe = pi

/-- The end of a pipe to which a file refers is open, and no other file refers to it. -/
theorem PipesOk.end_open (h : PipesOk file m g) {f : FilePtr} {x : PipePtr × Bool}
    (hf : (file f).endOf = some x) : m.IsLive x.1 ∧ m.flag x.1 x.2 = true ∧
      ∀ f', (file f').endOf = some x → f' = f := by
  have hend : (File.endOf ∘ file) f = some x := hf
  have hpos := tally_pos hend
  have hbal := h.balanced x
  have hhands : 0 ≤ ∑ q, (g q).ends x := sum_nonneg fun q _ => h.ends_nonneg q _
  dsimp only at hbal
  obtain ⟨hlive, hflag⟩ := Memory.openEnd_pos (m := m) (x := x) (by omega)
  have hopen : m.openEnd x = 1 := if_pos ⟨hlive, hflag⟩
  have hone : tally (File.endOf ∘ file) x ≤ 1 := by omega
  refine ⟨hlive, hflag, fun f' hf' => ?_⟩
  exact card_le_one.mp hone f' (by simpa using hf') f (by simpa using hf)

/-- The pipe of an open file has not been freed. -/
theorem PipesOk.live_of_file (h : PipesOk file m g) {f : FilePtr} (href : 0 < (file f).ref)
    (htype : (file f).type = .FD_PIPE) : m.IsLive (file f).pipe :=
  (h.end_open (if_pos ⟨href, htype⟩)).1

/-- Between calls, a pipe that has not been freed has an open file. -/
theorem PipesOk.file_of_live (h : PipesOk file m g) (hrest : ∀ p, ∃ proc, g p = .atRest proc)
    {pi : PipePtr}
    (hpi : m.IsLive pi) :
    ∃ f, 0 < (file f).ref ∧ (file f).type = .FD_PIPE ∧ (file f).pipe = pi := by
  rcases h.open_or_dying pi hpi with ⟨w, hw⟩ | ⟨p, hp⟩
  · have howed := h.balanced.eq_zero (t := (pi, w)) fun q => by
      obtain ⟨proc, hq⟩ := hrest q
      rw [hq]
      rfl
    have hopen : m.openEnd (pi, w) = 1 := if_pos ⟨hpi, hw⟩
    have hpos : 0 < tally (File.endOf ∘ file) (pi, w) := by omega
    obtain ⟨f, hf⟩ := card_pos.mp hpos
    have hend : (file f).endOf = some (pi, w) := (mem_filter.mp hf).2
    unfold File.endOf at hend
    split at hend
    next hcond => exact ⟨f, hcond.1, hcond.2, (Prod.ext_iff.mp (Option.some.inj hend)).1⟩
    next => cases hend
  · obtain ⟨proc, hq⟩ := hrest p
    rw [hq] at hp
    simp [Own.atRest] at hp

/-- Between calls, a count is the number of descriptors. -/
theorem FilesOk.ref_eq_tally {proc : Fin n → Proc}
    (h : FilesOk file proc g) (hrest : ∀ p, ∃ proc, g p = .atRest proc) (f : FilePtr) :
    (file f).ref = tally (slots proc) f := by
  have howed := h.balanced.eq_zero (t := f) fun q => by
    obtain ⟨proc, hq⟩ := hrest q
    rw [hq]
    rfl
  omega

variable [NeZero n]

/-! ### Every call keeps the discipline -/

theorem triple_withPath {path : Option (List UInt8)} {body : List UInt8 → Code n Label}
    (hbody : ∀ path, CallTriple sb p r (body path) Resting) :
    CallTriple sb p r (withPath path body) Resting := by
  cases path with
  | none => exact .ret (resting_user _ r)
  | some path => exact hbody path

/-- After a use that its guard allows, kernel code has the references that its label says. -/
theorem calls_use {c : Prop} [Decidable c] {use : Fs.Code (List InodePtr × List InodePtr)}
    (h : c → RefTriple sb p (.atRest (some r)) (Own.refs refs) use fun hands => Own.refs hands.1) :
    (discipline n sb).Calls p ((Own.atRest (some r)).withInodes (Own.refs refs))
      ((if c then some use else none).map fun prog => do
        let (refs, locks) ← liftFs prog
        pure (.kernel refs locks)) := by
  split
  next hc => exact .made (.bind_eq (h hc) fun hands => .ret ⟨r, rfl⟩)
  next => exact .refused

theorem calls_kernelCode {refs locks : List InodePtr} {use : InodeCall} :
    (discipline n sb).Calls p ((Own.atRest (some r)).withInodes (Own.refs refs))
      (kernelCode sb refs locks use) := by
  cases use with
  | iget inum =>
    exact calls_use fun _ => (refs_iget inum).bind fun ip => .ret (refs_cons ip refs).symm
  | idup ip => exact calls_use fun _ => (refs_idup ip).bind fun ip => .ret (refs_cons ip refs).symm
  | ilock ip => exact calls_use fun _ => .bind (.quiet (Fs.ilock_all ip)) fun _ => .ret rfl
  | iunlock ip => exact calls_use fun _ => .bind (.quiet (.perform trivial)) fun _ => .ret rfl
  | iput ip => exact calls_use fun hip => (refs_iput ip).bind fun _ => .ret (refs_erase hip.1).symm
  | ialloc type =>
    exact calls_use fun _ => (refs_ialloc type).bind fun ip => .ret (refs_cons ip refs).symm
  | writei ip src off len =>
    refine calls_use fun _ => .bind (.quiet ⟨trivial, fun d => ?_⟩) fun _ => .ret rfl
    show Prog.All Fs.KeepsRefs (if _ then _ else _)
    split
    · trivial
    · exact (Fs.writei_all sb ip src off len).bind fun _ => trivial
  | itrunc ip => exact calls_use fun _ => .bind (.quiet (Fs.itrunc_all ip)) fun _ => .ret rfl

theorem calls_syscall {call : Call} :
    (discipline n sb).Calls p (.atRest (some r)) (syscall sb p call) := by
  have hresting : ∀ {prog : Code n Label}, CallTriple sb p r prog Resting →
      (discipline n sb).Calls p (.atRest (some r)) (some prog) :=
    fun hprog => .made (hprog.mono fun label own => idle_of_resting (p := p))
  have hatRest : ∀ {prog : Code n Label}, CallTriple sb p r prog AtRest →
      (discipline n sb).Calls p (.atRest (some r)) (some prog) :=
    fun hprog => .made (hprog.mono fun label own => idle_of_atRest (p := p))
  cases call with
  | start | goOn => exact .refused
  | inode use =>
    have hcalls : (discipline n sb).Calls p ((Own.atRest (some r)).withInodes (Own.refs []))
      (kernelCode sb [] [] use) := calls_kernelCode
    exact hcalls
  | read fd copyout len =>
    exact hatRest (triple_argfd (atRest_user _ r) fun fd f hf => triple_fileread)
  | write fd src len =>
    exact hatRest (triple_argfd (atRest_user _ r) fun fd f hf => triple_filewrite)
  | fstat fd => exact hresting (triple_argfd (resting_user _ r) fun fd f hf => triple_filestat)
  | dup fd => exact hresting triple_sysDup
  | close fd => exact hresting triple_sysClose
  | pipe => exact hresting triple_sysPipe
  | «open» path omode => exact hresting (triple_withPath fun path => triple_sysOpen)
  | mkdir path =>
    exact hresting (triple_withPath fun path => triple_fsCall fun cwd =>
      refs_sysMake cwd path _ _ _)
  | mknod path major minor =>
    exact hresting (triple_withPath fun path => triple_fsCall fun cwd =>
      refs_sysMake cwd path _ _ _)
  | link old new =>
    exact hresting (triple_withPath fun old => triple_withPath fun new =>
      triple_fsCall fun cwd => refs_sysLink cwd old new)
  | unlink path =>
    exact hresting (triple_withPath fun path => triple_fsCall fun cwd => refs_sysUnlink cwd path)
  | chdir path => exact hresting (triple_withPath fun path => triple_sysChdir)
  | exec path argc => exact hresting (triple_withPath fun path => triple_sysExec)
  | fork => exact hresting triple_fork
  | exit =>
    refine .made (triple_exit.mono fun label own hown => ?_)
    obtain ⟨rfl, hown⟩ := hown
    exact hown
  | wait =>
    exact hresting (Discipline.Triple.bind_eq (triple_wait rfl) fun k => .ret (resting_user k r))

theorem codeSafe (n : Nat) [NeZero n] (sb : Superblock) : (discipline n sb).CodeSafe := by
  refine codeSafe_of_calls fun p label own what hidle => ?_
  cases label with
  | unborn =>
    obtain rfl := hidle
    cases what with
    | start => exact .made (.bind triple_forkret fun _ own' hown => .ret hown)
    | _ => exact .refused
  | user result =>
    obtain ⟨r, rfl⟩ := hidle
    exact calls_syscall
  | inPipe pi point =>
    obtain ⟨r, rfl⟩ := hidle
    cases what with
    | goOn =>
      cases point with
      | user result => exact .refused
      | writing k left =>
        refine .made (.mono (triple_runPipe ?_) fun label own => idle_of_atRest (p := p))
        exact ⟨trivial, fun _ => Pipe.pipewriteFrom_all k left⟩
      | reading k =>
        refine .made (.mono (triple_runPipe ?_) fun label own => idle_of_atRest (p := p))
        exact ⟨trivial, fun _ => Pipe.pipereadWait_all k⟩
    | _ => exact .refused
  | kernel refs locks =>
    obtain ⟨r, rfl⟩ := hidle
    cases what with
    | inode use => cases refs <;> cases locks <;> exact calls_kernelCode
    | goOn =>
      cases refs with
      | cons ip refs => exact .refused
      | nil =>
        cases locks with
        | cons ip locks => exact .refused
        | nil =>
          refine .made (.ret ⟨r, ?_⟩)
          rfl
    | _ => cases refs <;> cases locks <;> exact .refused

/-! ### The start -/

variable {disk : Nat → Block} {pipe : Nat → Pipe.State (Fin n)} {freelist : List Nat}

/-- The invariant holds at the start. -/
theorem inv_booted (hfree : freelist.Nodup) :
    Inv (booted disk pipe freelist).state (fun _ : Fin n => .atRest none) := by
  have hofile : ∀ q : Fin n, (bootedProc q).ofile = fun _ => none := by
    intro q
    unfold bootedProc
    split <;> rfl
  have hslots : ∀ f, tally (slots (bootedProc : Fin n → Proc)) f = 0 := by
    intro f
    simp [tally, slots, hofile]
  refine ⟨⟨by rintro _ _ ⟨⟩, by rintro _ _ _ ⟨⟩, by rintro _ _ _ _ _ ⟨⟩, ?_⟩,
    ⟨?_, ?_, fun _ _ => rfl, by rintro _ _ ⟨⟩⟩, ?_, ?_⟩
  · intro q hq
    change (bootedProc q).life = _ ∨ (bootedProc q).life = _ at hq
    show (bootedProc q).ofile = _ ∧ (bootedProc q).cwd = none
    by_cases hzero : q = 0
    · rw [bootedProc, if_pos hzero] at hq
      rcases hq with hq | hq <;> cases hq
    · rw [bootedProc, if_neg hzero]
      exact ⟨rfl, rfl⟩
  · intro f
    show (0 : Int) - tally (slots bootedProc) f = _
    rw [hslots f]
    simp [Own.atRest]
  · intro q f
    exact add_nonneg (Int.natCast_nonneg _) le_rfl
  · have hlive : ∀ pi, ¬ (⟨pipe, freelist, [], []⟩ : Memory n).IsLive pi := by
      intro pi hpi
      exact absurd hpi.1 (by simp)
    refine ⟨?_, fun _ _ => le_refl _, hfree, List.nodup_nil, by rintro _ ⟨⟩,
      fun pi hpi => (hlive pi hpi).elim, fun pi _ hpi => (hlive pi hpi).elim,
      by rintro _ _ ⟨⟩, by rintro _ _ _ ⟨⟩, fun pi hpi => (hlive pi hpi).elim⟩
    intro x
    have hopen : (⟨pipe, freelist, [], []⟩ : Memory n).openEnd x = 0 := if_neg fun h => hlive _ h.1
    show (⟨pipe, freelist, [], []⟩ : Memory n).openEnd x - tally (File.endOf ∘ fun _ => .zero) x = _
    rw [hopen]
    simp [tally, File.endOf, File.zero, Own.atRest]
  · intro ip
    have hcwd : (tally (Proc.cwd ∘ (bootedProc : Fin n → Proc)) ip : Int) = held (some 0) ip := by
      have hsame : (Proc.cwd ∘ (bootedProc : Fin n → Proc)) =
          Function.update (fun _ => none) 0 (some 0) := by
        funext q
        by_cases hq : q = 0
        · simp [bootedProc, hq]
        · simp [bootedProc, hq]
      rw [hsame, tally_update]
      simp [tally]
    show (bootedInode ip : Inode (Fin n)).ref - tally (Proc.cwd ∘ bootedProc) ip -
      tally (File.inodeOf ∘ fun _ => File.zero) ip = _
    rw [hcwd]
    by_cases hip : ip = 0
    · subst hip
      simp [bootedInode, tally, File.inodeOf, File.zero, Own.atRest]
    · simp [bootedInode, hip, tally, File.inodeOf, File.zero, Own.atRest, held, Ne.symm hip]

variable {config : Config (Fin n) (Op n) Res (State n) Label}

theorem holds_run (hfree : freelist.Nodup)
    (hrun : (machine n sb).Run (fun _ _ => True) (booted disk pipe freelist) config) :
    (discipline n sb).Holds config := by
  have hstart : (discipline n sb).Holds (booted disk pipe freelist) :=
    ⟨⟨_, inv_booted hfree, fun _ => rfl⟩, nofun⟩
  refine holds_of_run (codeSafe n sb) hstart ?_
  exact hrun.mono fun c e _ => meets_of_guard (fun _ _ _ => trivial) c e

/-! ### Between calls -/

/-- A process outside the kernel, or asleep in a pipe. -/
def Outside : Code n Label → Prop
  | .ret .unborn => True
  | .ret (.user _) => True
  | .ret (.inPipe _ _) => True
  | _ => False

instance (prog : Code n Label) : Decidable (Outside prog) :=
  match prog with
  | .ret .unborn => isTrue trivial
  | .ret (.user _) => isTrue trivial
  | .ret (.inPipe _ _) => isTrue trivial
  | .ret (.kernel _ _) => isFalse id
  | .op _ _ => isFalse id

/-- No call is in progress, except those that are asleep in a pipe. -/
def Quiescent (config : Config (Fin n) (Op n) Res (State n) Label) : Prop :=
  ∀ p, Outside (config.prog p)

/-- Between calls, all hands are empty. -/
theorem Quiescent.hands (hquiet : Quiescent config) (hholds : (discipline n sb).Holds config) :
    ∃ g : Fin n → Own n, Inv config.state g ∧ ∀ p, ∃ proc, g p = .atRest proc := by
  obtain ⟨g, hinv, hready⟩ := hholds.state
  refine ⟨g, hinv, fun p => ?_⟩
  have hout := hquiet p
  have hown := hready p
  cases hprog : config.prog p with
  | op o next =>
    rw [hprog] at hout
    exact hout.elim
  | ret label =>
    rw [hprog] at hout hown
    cases label with
    | unborn => exact ⟨none, hown⟩
    | user result =>
      obtain ⟨r, hr⟩ := hown
      exact ⟨some r, hr⟩
    | inPipe pi point =>
      obtain ⟨r, hr⟩ := hown
      exact ⟨some r, hr⟩
    | kernel refs locks => exact hout.elim

/-! ### Open files and pipes -/

/-- Open files are counted in every run of any number of processes. A pipe is never freed while a
file of it is open, and never twice. Whenever no call is in progress, the count of every file is the
number of descriptors that refer to it, a file with count 0 has no type, and a pipe has been freed
exactly if no descriptor refers to it any more. -/
theorem open_files_counted (hfree : freelist.Nodup)
    (hrun : (machine n sb).Run (fun _ _ => True) (booted disk pipe freelist) config) :
    (config.state.memory.freed.Nodup ∧
      ∀ f, 0 < (config.state.file f).ref → (config.state.file f).type = .FD_PIPE →
        (config.state.file f).pipe.id ∉ config.state.memory.freed) ∧
    (Quiescent config → (∀ f, (config.state.file f).ref = tally (slots config.state.proc) f) ∧
      (∀ f, (config.state.file f).ref = 0 → (config.state.file f).type = .FD_NONE) ∧
      ∀ id page, config.state.memory.pages[id]? = some page →
        (id ∈ config.state.memory.freed ↔ ¬ config.state.HasDescriptor ⟨page, id⟩)) := by
  have hholds := holds_run hfree hrun
  refine ⟨?_, fun hquiet => ?_⟩
  · obtain ⟨g, hinv, -⟩ := hholds.state
    exact ⟨hinv.pipes.freed_nodup, fun f href htype => (hinv.pipes.live_of_file href htype).2⟩
  · obtain ⟨g, hinv, hrest⟩ := hquiet.hands hholds
    have hcount := hinv.files.ref_eq_tally hrest
    refine ⟨hcount, hinv.files.none_of_zero, fun id page hpage => ?_⟩
    constructor
    · rintro hfreed ⟨q, fd, f, hf, htype, hpipe⟩
      have hpos : 0 < (config.state.file f).ref := by
        rw [hcount f]
        have hslot : slots config.state.proc (q, fd) = some f := hf
        exact_mod_cast tally_pos hslot
      have hlive := (hinv.pipes.live_of_file hpos htype).2
      rw [hpipe] at hlive
      exact hlive hfreed
    · intro hnone
      by_contra hfreed
      have hlive : config.state.memory.IsLive ⟨page, id⟩ := ⟨hpage, hfreed⟩
      obtain ⟨f, href, htype, hpipe⟩ := hinv.pipes.file_of_live hrest hlive
      have hpos : 0 < tally (slots config.state.proc) f := by
        have := hcount f
        omega
      obtain ⟨⟨q, fd⟩, hslot⟩ := card_pos.mp hpos
      exact hnone ⟨q, fd, f, (mem_filter.mp hslot).2, htype, hpipe⟩

/-- What the environment decides in the runs below. -/
def sampleChoice : Choice 2 := ⟨true, 7, 0, 0, ⟨false, none, true⟩⟩

/-- One call of a process, up to its end after `k` more steps. -/
def sampleCall (p : Fin 2) (call : Call) (k : Nat) : List (Event (Fin 2) Call (Choice 2)) :=
  .call p call sampleChoice :: List.replicate k (.step p sampleChoice)

/-- With two processes there are two to look at. -/
theorem quiescent_two {config : Config (Fin 2) (Op 2) Res (State 2) Label}
    (hzero : Outside (config.prog 0)) (hone : Outside (config.prog 1)) : Quiescent config
  | 0 => hzero
  | 1 => hone

/-- Two processes share a pipe; the last descriptors are closed by `close` and by `exit`. -/
def sharedPipe : List (Event (Fin 2) Call (Choice 2)) :=
  sampleCall 0 .start 0 ++ sampleCall 0 .pipe 8 ++ sampleCall 0 .fork 28 ++ sampleCall 1 .start 0 ++
    sampleCall 0 (.close 0) 3 ++ sampleCall 0 (.close 1) 3 ++ sampleCall 1 .exit 29

/-- A disk with a root directory, and one free page. -/
def sampleStart : Config (Fin 2) (Op 2) Res (State 2) Label :=
  booted (fun _ => Bytes.Buffer.zeros.writeLE 2 64 1) (fun _ => .fresh fun _ => 0) [7]

theorem open_files_counted_sharedPipe :
    ∃ config, (machine 2 ⟨0, 0, 0, 0, 0⟩).Run (fun _ _ => True) sampleStart config ∧
      config.state.memory.freed = [0] ∧ ¬ config.state.HasDescriptor ⟨7, 0⟩ := by
  have hplay : ((machine 2 ⟨0, 0, 0, 0, 0⟩).play (fun _ _ => true) sharedPipe sampleStart).map
      (fun c => (c.state.memory.freed, c.state.memory.pages,
        decide (Outside (c.prog 0)), decide (Outside (c.prog 1)))) =
      some ([0], [7], true, true) := by
    decide +kernel
  obtain ⟨config, hany, hvalue⟩ := exists_any_run hplay
  simp only [Prod.mk.injEq, decide_eq_true_eq] at hvalue
  obtain ⟨hfreed, hpages, hzero, hone⟩ := hvalue
  have hquiet := quiescent_two hzero hone
  refine ⟨config, hany, hfreed, ?_⟩
  refine (((open_files_counted (by decide) hany).2 hquiet).2.2 0 7 ?_).mp ?_
  · rw [hpages]
    rfl
  · rw [hfreed]
    decide

/-- In every configuration, also during calls: the end of a pipe to which a file refers is open, and
no other file refers to it. A pipe that has not been freed is in no free page and in no other pipe's
page. A process that has not started or has exited has no open files and no current directory. -/
theorem pipe_ends_unique {n : Nat} {pipe : Nat → Pipe.State (Fin (n + 1))}
    (free : { l : List Nat // l.Nodup }) (c :
    (machine (n + 1) sb).Reachable (booted disk pipe free)) :
    (∀ f pi w, (c.1.state.file f).endOf = some (pi, w) → c.1.state.memory.IsLive pi ∧
      c.1.state.memory.flag pi w = true ∧
      ∀ f', (c.1.state.file f').endOf = some (pi, w) → f' = f) ∧
    (∀ pi, c.1.state.memory.IsLive pi → pi.page ∉ c.1.state.memory.freelist ∧
      ∀ pi', c.1.state.memory.IsLive pi' → pi.page = pi'.page → pi = pi') ∧
    ∀ q, (c.1.state.proc q).life = .unused ∨ (c.1.state.proc q).life = .zombie →
      (c.1.state.proc q).ofile = (fun _ => none) ∧ (c.1.state.proc q).cwd = none := by
  obtain ⟨g, hinv, -⟩ := (holds_run free.2 c.2).state
  refine ⟨fun f pi w => hinv.pipes.end_open, fun pi hpi => ?_, hinv.procs.empty⟩
  exact ⟨hinv.pipes.page_used pi hpi, fun pi' hpi' => hinv.pipes.page_inj pi pi' hpi hpi'⟩

theorem pipe_ends_unique_sharedPipe : ∃ c : (machine 2 ⟨0, 0, 0, 0, 0⟩).Reachable sampleStart,
    (c.1.state.file 0).endOf = some (⟨7, 0⟩, false) ∧
      ∀ f', (c.1.state.file f').endOf = some (⟨7, 0⟩, false) → f' = 0 := by
  have hplay : ((machine 2 ⟨0, 0, 0, 0, 0⟩).play (fun _ _ => true) (sharedPipe.take 10)
      sampleStart).map (fun c => (c.state.file 0).endOf) = some (some (⟨7, 0⟩, false)) := by
    decide +kernel
  obtain ⟨config, hany, hend⟩ := exists_any_run hplay
  exact ⟨⟨config, hany⟩, hend,
    ((pipe_ends_unique ⟨[7], by decide⟩ ⟨config, hany⟩).1 0 _ _ hend).2.2⟩

/-! ### The inode cache -/

/-- References to inodes are counted in every run of any number of processes: whenever no call is in
progress, the count of an entry of the inode cache is the number of current directories plus the
number of open files of an inode or a device that point to it. -/
theorem inode_refs_counted (hfree : freelist.Nodup)
    (hrun : (machine n sb).Run (fun _ _ => True) (booted disk pipe freelist) config)
    (hquiet : Quiescent config) (ip : InodePtr) :
    (config.state.fs.inode ip).ref =
      (Finset.univ.filter fun q => (config.state.proc q).cwd = some ip).card +
        (Finset.univ.filter fun f => 0 < (config.state.file f).ref ∧
          ((config.state.file f).type = .FD_INODE ∨ (config.state.file f).type = .FD_DEVICE) ∧
          (config.state.file f).ip = ip).card := by
  obtain ⟨g, hinv, hrest⟩ := hquiet.hands (holds_run hfree hrun)
  have howed := Balanced.eq_zero hinv.inodes (t := ip) fun q => by
    obtain ⟨proc, hq⟩ := hrest q
    rw [hq]
    rfl
  have hfiles : tally (File.inodeOf ∘ config.state.file) ip =
      (Finset.univ.filter fun f => 0 < (config.state.file f).ref ∧
        ((config.state.file f).type = .FD_INODE ∨ (config.state.file f).type = .FD_DEVICE) ∧
        (config.state.file f).ip = ip).card := by
    unfold tally
    congr 1
    refine filter_congr fun f _ => ?_
    simp only [Function.comp_apply, File.inodeOf]
    split
    next hcond => simp [hcond]
    next hcond =>
      simp only [reduceCtorEq, false_iff]
      rintro ⟨href, htype, -⟩
      exact hcond ⟨href, htype⟩
  have hcwds : tally (Proc.cwd ∘ config.state.proc) ip =
      (Finset.univ.filter fun q => (config.state.proc q).cwd = some ip).card := rfl
  dsimp only at howed
  omega

/-- A process opens the root directory and forks. -/
def sharedRoot : List (Event (Fin 2) Call (Choice 2)) :=
  sampleCall 0 .start 0 ++ sampleCall 0 (.open (some [47]) 0) 11 ++ sampleCall 0 .fork 26

theorem inode_refs_counted_sharedRoot :
    ∃ config, (machine 2 ⟨0, 0, 0, 0, 0⟩).Run (fun _ _ => True) sampleStart config ∧
      (config.state.fs.inode 0).ref = 3 ∧
      (Finset.univ.filter fun q => (config.state.proc q).cwd = some 0).card +
        (Finset.univ.filter fun f => 0 < (config.state.file f).ref ∧
          ((config.state.file f).type = .FD_INODE ∨ (config.state.file f).type = .FD_DEVICE) ∧
          (config.state.file f).ip = 0).card = 3 := by
  have hplay : ((machine 2 ⟨0, 0, 0, 0, 0⟩).play (fun _ _ => true) sharedRoot sampleStart).map
      (fun c => ((c.state.fs.inode 0).ref,
        decide (Outside (c.prog 0)), decide (Outside (c.prog 1)))) = some (3, true, true) := by
    decide +kernel
  obtain ⟨config, hany, hvalue⟩ := exists_any_run hplay
  simp only [Prod.mk.injEq, decide_eq_true_eq] at hvalue
  obtain ⟨href, hzero, hone⟩ := hvalue
  have hcount := inode_refs_counted (by decide) hany (quiescent_two hzero hone) 0
  refine ⟨config, hany, href, ?_⟩
  omega

end Xv6.Files
