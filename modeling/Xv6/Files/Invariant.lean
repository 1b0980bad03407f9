import Xv6.Files.Syscalls
import Xv6.Interleave.Counting
import Mathlib.Data.Fintype.Prod

/-!
# References to open files, pipes and inodes

The invariant of `Xv6.Files.machine`. Three ledgers say that nothing is lost on the way: the
references to the entries of the file table, the open ends of the pipes, and the references to the
entries of the inode cache. For each of them `Own` says what a process has in its hands, that is in
its registers and on its stack. A hand is negative while a table already holds a reference that has
not been counted yet, as between `fdalloc` and `filedup` in `sys_dup`, or still holds one that has
been given up, as between `fileclose` and the clearing of the descriptor in `exit`.
-/

namespace Xv6.Files

open Interleave Function

variable {n : Nat}

/-! ### What the tables hold -/

/-- The end of a pipe that an open file holds. -/
def File.endOf (file : File) : Option (PipePtr × Bool) :=
  if 0 < file.ref ∧ file.type = .FD_PIPE then some (file.pipe, file.writable) else none

/-- The inode that an open file holds. -/
def File.inodeOf (file : File) : Option InodePtr :=
  if 0 < file.ref ∧ (file.type = .FD_INODE ∨ file.type = .FD_DEVICE) then some file.ip else none

/-- The descriptor slots of all processes. -/
def slots (proc : Fin n → Proc) (slot : Fin n × Fd) : Option FilePtr := (proc slot.1).ofile slot.2

namespace Memory

/-- A pipe that has been allocated and not been freed. -/
def IsLive (m : Memory n) (pi : PipePtr) : Prop := m.pages[pi.id]? = some pi.page ∧ pi.id ∉ m.freed

instance (m : Memory n) (pi : PipePtr) : Decidable (m.IsLive pi) := by
  unfold IsLive
  infer_instance

/-- Whether one end of a pipe is marked open in its page. -/
def flag (m : Memory n) (pi : PipePtr) (writable : Bool) : Bool :=
  if writable then (m.pipe pi.page).writeopen else (m.pipe pi.page).readopen

/-- The number of tokens for one end of a pipe. -/
def openEnd (m : Memory n) (x : PipePtr × Bool) : Int :=
  if m.IsLive x.1 ∧ m.flag x.1 x.2 = true then 1 else 0

end Memory

/-! ### What a process has -/

/-- What a running process knows and has in its hands: its own entry of the process table, the entry
it is filling in `fork`, the references to files, the files it has allocated and not opened yet, the
ends of pipes, the pipe it is about to free, and the references to inodes. -/
@[ext] structure Own (n : Nat) where
  proc : Option Proc
  child : Option (Fin n × Proc)
  files : FilePtr → Int
  fresh : List FilePtr
  ends : PipePtr × Bool → Int
  dying : Option PipePtr
  inodes : InodePtr → Int

namespace Own

/-- A process with nothing in its hands. -/
def atRest (proc : Option Proc) : Own n := ⟨proc, none, 0, [], 0, none, 0⟩

/-- The references in a list, each counted as often as it occurs. -/
def refs (refs : List InodePtr) (ip : InodePtr) : Int := refs.count ip

/-- The same with other references to inodes. -/
def withInodes (own : Own n) (inodes : InodePtr → Int) : Own n := { own with inodes := inodes }

end Own

/-! ### The invariant -/

/-- The entries of the process table. -/
structure ProcsOk (proc : Fin n → Proc) (g : Fin n → Own n) : Prop where
  own : ∀ p r, (g p).proc = some r → proc p = r ∧ r.life = .alive
  child : ∀ p q r, (g p).child = some (q, r) → proc q = r ∧ r.life = .embryo
  child_inj : ∀ p p' q r r', (g p).child = some (q, r) → (g p').child = some (q, r') → p = p'
  empty : ∀ q, (proc q).life = .unused ∨ (proc q).life = .zombie →
    (proc q).ofile = (fun _ => none) ∧ (proc q).cwd = none

/-- The reference counts of the file table. -/
structure FilesOk (file : FilePtr → File) (proc : Fin n → Proc) (g : Fin n → Own n) : Prop where
  balanced : Balanced Own.files g fun f => (file f).ref - tally (slots proc) f
  share_nonneg : ∀ q f, 0 ≤ tally (proc q).ofile f + (g q).files f
  none_of_zero : ∀ f, (file f).ref = 0 → (file f).type = .FD_NONE
  fresh : ∀ q f, f ∈ (g q).fresh → (file f).type = .FD_NONE ∧ (file f).ref = 1 ∧
    tally (proc q).ofile f + (g q).files f = 1

/-- The pipes and their pages. -/
structure PipesOk (file : FilePtr → File) (m : Memory n) (g : Fin n → Own n) : Prop where
  balanced : Balanced Own.ends g fun x => m.openEnd x - tally (File.endOf ∘ file) x
  ends_nonneg : ∀ q x, 0 ≤ (g q).ends x
  freelist_nodup : m.freelist.Nodup
  freed_nodup : m.freed.Nodup
  freed_lt : ∀ id ∈ m.freed, id < m.pages.length
  page_used : ∀ pi, m.IsLive pi → pi.page ∉ m.freelist
  page_inj : ∀ pi pi', m.IsLive pi → m.IsLive pi' → pi.page = pi'.page → pi = pi'
  dying : ∀ p pi, (g p).dying = some pi → m.IsLive pi ∧ ∀ w, m.flag pi w = false
  dying_inj : ∀ p q pi, (g p).dying = some pi → (g q).dying = some pi → p = q
  open_or_dying : ∀ pi, m.IsLive pi → (∃ w, m.flag pi w = true) ∨ ∃ p, (g p).dying = some pi

/-- The reference counts of the inode cache. -/
def InodesOk (ref : InodePtr → Int) (proc : Fin n → Proc) (file : FilePtr → File)
    (g : Fin n → Own n) : Prop :=
  Balanced Own.inodes g fun ip =>
    ref ip - tally (Proc.cwd ∘ proc) ip - tally (File.inodeOf ∘ file) ip

/-- The invariant. -/
structure Inv (s : State n) (g : Fin n → Own n) : Prop where
  procs : ProcsOk s.proc g
  files : FilesOk s.file s.proc g
  pipes : PipesOk s.file s.memory g
  inodes : InodesOk (fun ip => (s.fs.inode ip).ref) s.proc s.file g

/-- What a process at rest has: nothing, and in the kernel what its label says. -/
def idle (_ : Fin n) : Label → Own n → Prop
  | .unborn, own => own = .atRest none
  | .user _, own => ∃ r, own = .atRest (some r)
  | .inPipe _ _, own => ∃ r, own = .atRest (some r)
  | .kernel refs _, own => ∃ r, own = (Own.atRest (some r)).withInodes (Own.refs refs)

/-- The discipline of references. -/
def discipline (n : Nat) [NeZero n] (sb : Superblock) : Discipline (machine n sb) (Own n) where
  inv := Inv
  needs := fun _ _ _ => True
  idle := idle
  allowed := fun _ => True
  guard := fun _ _ _ => True

section Triples

variable {α : Type} [NeZero n] (sb : Superblock) (p : Fin n) (own : Own n) (prog : Code n α)

abbrev Triple (post : α → Own n → Prop) : Prop := (discipline n sb).Triple p own prog post

abbrev Moves (own' : Own n) : Prop := (discipline n sb).Moves p own prog own'

end Triples

/-! ### Parts that an operation leaves alone -/

section Frame

variable {proc : Fin n → Proc} {file : FilePtr → File} {m : Memory n} {ref : InodePtr → Int}
  {g : Fin n → Own n} {p : Fin n} {own : Own n}

theorem ProcsOk.same (h : ProcsOk proc g) (hproc : own.proc = (g p).proc)
    (hchild : own.child = (g p).child) : ProcsOk proc (update g p own) := by
  have hprocs := proj_update hproc
  have hchilds := proj_update hchild
  constructor
  · intro q r
    rw [hprocs]
    exact h.own q r
  · intro q c r
    rw [hchilds]
    exact h.child q c r
  · intro q q' c r r'
    rw [hchilds, hchilds]
    exact h.child_inj q q' c r r'
  · exact h.empty

theorem FilesOk.same (h : FilesOk file proc g) (hfiles : own.files = (g p).files)
    (hfresh : own.fresh = (g p).fresh) : FilesOk file proc (update g p own) := by
  have hshares := proj_update hfiles
  constructor
  · refine h.balanced.update fun f => ?_
    rw [hfiles]
    omega
  · intro q f
    rw [hshares]
    exact h.share_nonneg q f
  · exact h.none_of_zero
  · intro q f
    rw [hshares, proj_update hfresh]
    exact h.fresh q f

/-- A process moves ends of pipes between its hands and open files. -/
theorem PipesOk.exchange {file' : FilePtr → File} (h : PipesOk file m g)
    (hends : ∀ x, own.ends x + tally (File.endOf ∘ file') x =
      (g p).ends x + tally (File.endOf ∘ file) x)
    (hnonneg : ∀ x, 0 ≤ own.ends x) (hdying : own.dying = (g p).dying) :
    PipesOk file' m (update g p own) := by
  have hdyings := proj_update hdying
  refine
    { h with balanced := ?_, ends_nonneg := ?_, dying := ?_, dying_inj := ?_, open_or_dying := ?_ }
  · refine h.balanced.update fun x => ?_
    have := hends x
    omega
  · intro q x
    rcases eq_or_ne q p with rfl | hq
    · rw [update_self]
      exact hnonneg x
    · rw [update_of_ne hq]
      exact h.ends_nonneg q x
  · intro q pi
    rw [hdyings]
    exact h.dying q pi
  · intro q q' pi
    rw [hdyings, hdyings]
    exact h.dying_inj q q' pi
  · intro pi hlive
    simp only [hdyings]
    exact h.open_or_dying pi hlive

theorem PipesOk.same (h : PipesOk file m g) (hends : own.ends = (g p).ends)
    (hdying : own.dying = (g p).dying) : PipesOk file m (update g p own) :=
  h.exchange (fun _ => by rw [hends]) (hends ▸ h.ends_nonneg p) hdying

theorem InodesOk.same (h : InodesOk ref proc file g) (hinodes : own.inodes = (g p).inodes) :
    InodesOk ref proc file (update g p own) := by
  refine Balanced.update h fun ip => ?_
  rw [hinodes]
  omega

end Frame

end Xv6.Files
