import Xv6.Files.Pipes

/-!
# The inode references of file system code

What each function of `kernel/fs.c` and each part of `kernel/sysfile.c` above it does to the inode
references in the hands of its caller, on every path: `RefTriple p own h prog next` says that code
started with the references `h` ends with the references `next r`, where `r` is its result.
-/

namespace Xv6.Fs

open Interleave

/-- Operations that change no reference count. -/
def KeepsRefs : Op → Prop
  | .iget _ => False
  | .idup _ => False
  | .iputBegin _ => False
  | .iputEnd _ => False
  | _ => True

variable {Pid : Type} {f : Inode Pid → Inode Pid} {ip : InodePtr}

theorem State.ref_setInode {s : State Pid}
    (h : (f (s.inode ip)).ref = (s.inode ip).ref) (ip' : InodePtr) :
    ((s.setInode ip f).inode ip').ref = (s.inode ip').ref := by
  unfold State.setInode
  rcases eq_or_ne ip' ip with rfl | hne
  · simpa using h
  · simp [hne]

theorem State.ref_setInode_add {s : State Pid} {d : Int}
    (h : (f (s.inode ip)).ref = (s.inode ip).ref + d) (ip' : InodePtr) :
    ((s.setInode ip f).inode ip').ref = (s.inode ip').ref + d * held (some ip) ip' := by
  unfold State.setInode
  rcases eq_or_ne ip' ip with rfl | hne
  · simpa using h
  · simp [hne, held_of_ne hne.symm]

variable [DecidableEq Pid]

/-- Such an operation changes no count. -/
theorem exec_ref (sb : Superblock) (p : Pid) {o : Op} (ho : KeepsRefs o) (s : State Pid) :
    (exec sb p o s).Ensures (fun _ => True)
      fun _ s' => ∀ ip, (s'.inode ip).ref = (s.inode ip).ref := by
  cases o with
  | iget | idup | iputBegin | iputEnd => exact ho.elim
  | ballocAt | iallocAt =>
    simp only [exec]
    split <;> exact fun _ => rfl
  | bzero | inum | dinode | iupdate | bread | store | setEntry => exact fun _ => rfl
  | invalidate | releasesleep | setDinode => exact State.ref_setInode rfl
  | bfree =>
    simp only [exec]
    split
    · exact fun _ => rfl
    · trivial
  | checkRef =>
    simp only [exec]
    split
    · trivial
    · exact fun _ => rfl
  | acquiresleep =>
    simp only [exec]
    split
    · exact State.ref_setInode rfl
    · trivial
  | iload =>
    simp only [exec]
    split
    · exact fun _ => rfl
    · split
      · trivial
      · exact State.ref_setInode rfl
  | iunlock =>
    simp only [exec]
    split
    · trivial
    · exact State.ref_setInode rfl
  | panic => trivial

/-! ### Code that changes no reference count -/

section Quiet

variable (sb : Superblock) (ip : InodePtr) {ok : Op → Prop}

theorem stop_all {α : Type} {message : String} (h : ok (.panic message)) :
    (stop message : Code α).All ok :=
  ⟨h, nofun⟩

theorem forEach_all {β : Type} {body : β → Code Unit} (h : ∀ x, (body x).All ok)
    (xs : List β) : (forEach xs body).All ok := by
  induction xs with
  | nil => trivial
  | cons x rest ih => exact (h x).bind fun _ => ih

theorem ballocFrom_all (fuel b : Nat) : (ballocFrom sb fuel b).All KeepsRefs := by
  induction fuel generalizing b with
  | zero => exact stop_all trivial
  | succ fuel ih =>
    simp only [ballocFrom]
    split
    · refine ⟨trivial, fun r => ?_⟩
      cases r with
      | none => exact ih _
      | some addr => exact ⟨trivial, fun _ => trivial⟩
    · exact stop_all trivial

theorem balloc_all : (balloc sb).All KeepsRefs := ballocFrom_all sb _ _

theorem ilock_all : (ilock ip).All KeepsRefs :=
  ⟨trivial, fun _ => ⟨trivial, fun _ => ⟨trivial, fun _ => trivial⟩⟩⟩

theorem itruncDirect_all (i : Fin NDIRECT) : (itruncDirect ip i).All KeepsRefs := by
  exact ⟨trivial, fun _ => .ite ⟨trivial, fun _ => ⟨trivial, fun _ => trivial⟩⟩ trivial⟩

theorem itruncEntry_all (a : Block) (j : Fin NINDIRECT) : (itruncEntry a j).All KeepsRefs := by
  unfold itruncEntry
  split
  · exact ⟨trivial, fun _ => trivial⟩
  · trivial

theorem itruncIndirect_all : (itruncIndirect ip).All KeepsRefs := by
  refine ⟨trivial, fun d => .ite ⟨trivial, fun bp => ?_⟩ trivial⟩
  refine (forEach_all (itruncEntry_all bp) _).bind fun _ => ?_
  exact ⟨trivial, fun _ => ⟨trivial, fun _ => trivial⟩⟩

theorem itrunc_all : (itrunc ip).All KeepsRefs := by
  refine (forEach_all (itruncDirect_all ip) _).bind fun _ => ?_
  refine (itruncIndirect_all ip).bind fun _ => ?_
  exact ⟨trivial, fun _ => ⟨trivial, fun _ => trivial⟩⟩

theorem bmapSlot_all (k : Fin (NDIRECT + 1)) : (bmapSlot sb ip k).All KeepsRefs := by
  refine ⟨trivial, fun d => .ite ?_ trivial⟩
  exact (balloc_all sb).bind fun _ => ⟨trivial, fun _ => trivial⟩

theorem bmapEntry_all (ind : Nat) (j : Fin NINDIRECT) : (bmapEntry sb ind j).All KeepsRefs := by
  refine ⟨trivial, fun bp => .ite ?_ trivial⟩
  exact (balloc_all sb).bind fun _ => ⟨trivial, fun _ => trivial⟩

theorem bmap_all (bn : Nat) : (bmap sb ip bn).All KeepsRefs := by
  unfold bmap
  split
  · exact bmapSlot_all sb ip _
  · split
    · exact (bmapSlot_all sb ip _).bind fun ind => bmapEntry_all sb ind _
    · exact stop_all trivial

theorem readiFrom_all (copyout : Copyout) (n fuel tot off : Nat) :
    (readiFrom sb ip copyout n fuel tot off).All KeepsRefs := by
  induction fuel generalizing tot off with
  | zero => trivial
  | succ fuel ih =>
    simp only [readiFrom]
    split
    · refine (bmap_all sb ip _).bind fun addr => ⟨trivial, fun bp => ?_⟩
      exact .ite ((ih _ _).bind fun _ => trivial) trivial
    · trivial

theorem readi_all (copyout : Copyout) (off n : Nat) :
    (readi sb ip copyout off n).All KeepsRefs := by
  refine ⟨trivial, fun d => .ite trivial ?_⟩
  exact (readiFrom_all sb ip copyout _ _ _ _).bind fun _ => trivial

theorem writeiFrom_all (src : Copyin) (n fuel tot off : Nat) :
    (writeiFrom sb ip src n fuel tot off).All KeepsRefs := by
  induction fuel generalizing tot off with
  | zero => trivial
  | succ fuel ih =>
    simp only [writeiFrom]
    split
    · refine (bmap_all sb ip _).bind fun addr => ?_
      split
      · exact ⟨trivial, fun _ => ih _ _⟩
      · exact ⟨trivial, fun _ => trivial⟩
    · trivial

theorem writeiEnd_all (off : Nat) : (writeiEnd ip off).All KeepsRefs :=
  ⟨trivial, fun _ => ⟨trivial, fun _ => trivial⟩⟩

theorem writei_all (src : Copyin) (off n : Nat) : (writei sb ip src off n).All KeepsRefs := by
  refine ⟨trivial, fun d => .ite trivial (.ite trivial ?_)⟩
  refine (writeiFrom_all sb ip src n _ _ _).bind fun off => ?_
  exact .ite ((writeiEnd_all ip off).bind fun _ => trivial) trivial

theorem readDirent_all (message : String) (off : Nat) :
    (readDirent sb ip message off).All KeepsRefs := by
  refine (readi_all sb ip _ off _).bind fun r => ?_
  dsimp only
  split
  · exact stop_all trivial
  · trivial

theorem dirlookupFrom_all (name : List UInt8) (fuel off : Nat) :
    (dirlookupFrom sb ip name fuel off).All KeepsRefs := by
  induction fuel generalizing off with
  | zero => trivial
  | succ fuel ih =>
    refine ⟨trivial, fun d => .ite ?_ trivial⟩
    exact (readDirent_all sb ip _ off).bind fun de => .ite trivial (ih _)

theorem dirlinkFrom_all (fuel off : Nat) : (dirlinkFrom sb ip fuel off).All KeepsRefs := by
  induction fuel generalizing off with
  | zero => trivial
  | succ fuel ih =>
    refine ⟨trivial, fun d => .ite ?_ trivial⟩
    exact (readDirent_all sb ip _ off).bind fun de => .ite trivial (ih _)

theorem dirlinkNew_all (name : List UInt8) (inum : Nat) :
    (dirlinkNew sb ip name inum).All KeepsRefs := by
  refine ⟨trivial, fun d => ?_⟩
  refine (dirlinkFrom_all sb ip _ _).bind fun off => ?_
  refine (writei_all sb ip _ off _).bind fun r => ?_
  split
  · exact stop_all trivial
  · trivial

theorem isdiremptyFrom_all (fuel off : Nat) : (isdiremptyFrom sb ip fuel off).All KeepsRefs := by
  induction fuel generalizing off with
  | zero => trivial
  | succ fuel ih =>
    refine ⟨trivial, fun d => .ite ?_ trivial⟩
    exact (readDirent_all sb ip _ off).bind fun de => .ite trivial (ih _)

theorem isBusyDir_all : (isBusyDir sb ip).All KeepsRefs := by
  refine ⟨trivial, fun d => .ite ?_ trivial⟩
  exact Prog.All.bind ⟨trivial, fun d => isdiremptyFrom_all sb ip _ _⟩ fun _ => trivial

end Quiet

end Xv6.Fs

namespace Xv6.Files

open Interleave

variable {n : Nat} [NeZero n] {sb : Superblock} {p : Fin n} {own : Own n} {h : InodePtr → Int}

/-! ### Triples for file system code -/

/-- Code of the file system, started with the references `h`, ends with the references `next r`. -/
def RefTriple {α : Type} (sb : Superblock) (p : Fin n) (own : Own n) (h : InodePtr → Int)
    (prog : Fs.Code α) (next : α → InodePtr → Int) : Prop :=
  (discipline n sb).Triple p (own.withInodes h) (liftFs prog)
    fun r own' => own' = own.withInodes (next r)

namespace RefTriple

variable {α β : Type} {next : α → InodePtr → Int}

theorem ret {value : α} (hnext : next value = h) : RefTriple sb p own h (.ret value) next :=
  Discipline.Triple.ret (by rw [hnext])

variable {prog : Fs.Code α} {next : β → InodePtr → Int} {rest : α → Fs.Code β}

theorem bind {m : α → InodePtr → Int} (hprog : RefTriple sb p own h prog m)
    (hrest : ∀ value, RefTriple sb p own (m value) (rest value) next) :
    RefTriple sb p own h (prog >>= rest) next := by
  unfold RefTriple liftFs
  rw [Prog.lift_bind]
  exact .bind_eq hprog hrest

theorem congr {next next' : α → InodePtr → Int}
    (hprog : RefTriple sb p own h prog next) (hnext : ∀ r, next r = next' r) :
    RefTriple sb p own h prog next' := by
  refine .mono hprog fun r own' hown => ?_
  rw [hown, hnext]

theorem perform {o : Fs.Op} {next : Fs.Res o → InodePtr → Int}
    (hexec : ∀ s : Fs.State (Fin n), (Fs.exec sb p o s).Ensures (fun _ => True) fun r s' =>
      ∀ ip, next r ip = h ip + ((s'.inode ip).ref - (s.inode ip).ref)) :
    RefTriple sb p own h (Prog.perform o) next := by
  refine Discipline.Triple.perform rfl trivial fun s g choice hinv hown _ => ?_
  refine Outcome.ensures_inside.mpr ((hexec s.fs).mono fun r fs hr => ?_)
  refine ⟨own.withInodes (next r), ⟨hinv.procs.same ?_ ?_, hinv.files.same ?_ ?_,
    hinv.pipes.same ?_ ?_, hinv.inodes.count fun ip => ?_⟩, rfl⟩
  iterate 6 rw [hown]; rfl
  rw [hown]
  exact hr ip

theorem quiet (hprog : prog.All Fs.KeepsRefs) : RefTriple sb p own h prog fun _ => h := by
  refine .of_all (P := fun o => ∃ o', o = Op.fs o' ∧ Fs.KeepsRefs o') ?_
    (Prog.All.lift (fun o ho => ⟨o, rfl, ho⟩) hprog)
  rintro o ⟨o', rfl, ho⟩
  refine perform fun s => (Fs.exec_ref sb p ho s).mono fun r s' hs ip => ?_
  rw [hs]
  omega

theorem skip
    (hprog : prog.All Fs.KeepsRefs) (hrest : ∀ value, RefTriple sb p own h (rest value) next) :
    RefTriple sb p own h (prog >>= rest) next :=
  .bind (.quiet hprog) hrest

theorem step {o : Fs.Op} {rest : Fs.Res o → Fs.Code β}
    (ho : Fs.KeepsRefs o) (hrest : ∀ r, RefTriple sb p own h (rest r) next) :
    RefTriple sb p own h (Prog.perform o >>= rest) next :=
  .skip (.perform ho) hrest

theorem stop {message : String} : RefTriple sb p own h (Fs.stop message) next := by
  intro s g hinv
  exact Discipline.wp_op _ rfl hinv trivial fun _ _ _ _ _ _ => trivial

end RefTriple

/-! ### Inodes -/

variable (cwd dp ip : InodePtr) (name path : List UInt8) (type major minor : BitVec 16)

theorem refs_iget (inum : Nat) :
    RefTriple sb p own h (Fs.iget inum) fun ip => h + held (some ip) := by
  refine .perform fun s => ?_
  simp only [Fs.exec]
  split
  next ip _ =>
    intro ip'
    rw [Fs.State.ref_setInode_add rfl, Pi.add_apply]
    omega
  next =>
    split
    next ip hfind =>
      intro ip'
      have hzero : (s.inode ip).ref = 0 := by
        have := List.find?_some hfind
        simpa using this
      rw [Fs.State.ref_setInode_add (d := 1) (by simp [hzero]), Pi.add_apply]
      omega
    next => trivial

theorem refs_idup : RefTriple sb p own h (Fs.idup ip) fun ip => h + held (some ip) := by
  refine .bind ?_ fun _ => .ret rfl
  refine .perform fun s ip' => ?_
  rw [Fs.State.ref_setInode_add rfl, Pi.add_apply]
  omega

theorem refs_iallocFrom (fuel inum : Nat) :
    RefTriple sb p own h (Fs.iallocFrom type fuel inum) fun ip => h + held (some ip) := by
  induction fuel generalizing inum with
  | zero => exact .stop
  | succ fuel ih =>
    refine .step trivial fun allocated => ?_
    split
    · exact refs_iget inum
    · exact ih _

theorem refs_ialloc : RefTriple sb p own h (Fs.ialloc sb type) fun ip => h + held (some ip) :=
  refs_iallocFrom type _ _

/-- The reference is dropped only after the inode has been freed. -/
theorem refs_ifree : RefTriple sb p own h (Fs.ifree ip) fun _ => h - held (some ip) := by
  refine .skip (Fs.itrunc_all ip) fun _ => ?_
  refine .step trivial fun _ => ?_
  refine .step trivial fun _ => ?_
  refine .step trivial fun _ => ?_
  refine .step trivial fun _ => ?_
  refine .perform fun s ip' => ?_
  rw [Fs.State.ref_setInode_add rfl, Pi.sub_apply]
  omega

/-- `iput` gives up one reference, at its start or at its end. -/
theorem refs_iput : RefTriple sb p own h (Fs.iput ip) fun _ => h - held (some ip) := by
  refine .bind (m := fun last => if last then h else h - held (some ip)) ?_ fun last => ?_
  · refine .perform fun s => ?_
    simp only [Fs.exec]
    split
    · split
      · intro ip'
        rw [Fs.State.ref_setInode rfl]
        simp
      · trivial
    · intro ip'
      rw [Fs.State.ref_setInode_add rfl]
      simp only [Bool.false_eq_true, if_false, Pi.sub_apply]
      omega
  · cases last with
    | false => exact .ret rfl
    | true => exact refs_ifree ip

theorem refs_iunlockput : RefTriple sb p own h (Fs.iunlockput ip) fun _ => h - held (some ip) :=
  .step trivial fun _ => refs_iput ip

variable {α : Type}

theorem refs_iunlockput_back {ip : InodePtr} {value : α} {next : α → InodePtr → Int}
    (hnext : next value = h) :
    RefTriple sb p own (h + held (some ip)) (Fs.iunlockput ip >>= fun _ => .ret value) next :=
  .bind (refs_iunlockput ip) fun _ => .ret (hnext.trans (add_sub_cancel_right h _).symm)

/-! ### Directories and paths -/

/-- The reference in the result of a lookup. -/
def heldFst {α : Type} (found : Option (InodePtr × α)) : InodePtr → Int := held (found.map Prod.fst)

@[simp] theorem heldFst_none : heldFst (none : Option (InodePtr × α)) = 0 := held_none

@[simp] theorem heldFst_some (ip : InodePtr) (x : α) :
    heldFst (some (ip, x)) = held (some ip) := rfl

theorem refs_dirlookup :
    RefTriple sb p own h (Fs.dirlookup sb dp name) fun found => h + heldFst found := by
  refine .step trivial fun d => ?_
  split
  · exact .stop
  · refine .skip (Fs.dirlookupFrom_all sb dp name _ _) fun found => ?_
    match found with
    | none => exact .ret (add_zero h)
    | some (off, inum) => exact .bind (refs_iget inum) fun ip => .ret rfl

theorem refs_dirlink (inum : Nat) :
    RefTriple sb p own h (Fs.dirlink sb dp name inum) fun _ => h := by
  refine .bind (refs_dirlookup dp name) fun found => ?_
  match found with
  | none =>
    rw [heldFst_none, add_zero]
    exact .skip (Fs.dirlinkNew_all sb dp name inum) fun _ => .ret rfl
  | some (ip, off) => exact .bind (refs_iput ip) fun _ => .ret (add_sub_cancel_right h _).symm

/-- The walk has a reference to one directory at a time. -/
theorem refs_namexFrom (nameiparent : Bool) (elems : List (List UInt8)) (ip : InodePtr)
    (name : List UInt8) :
    RefTriple sb p own (h + held (some ip)) (Fs.namexFrom sb nameiparent elems ip name)
      fun found => h + heldFst found := by
  induction elems generalizing ip name with
  | nil =>
    simp only [Fs.namexFrom]
    split
    · refine .bind (refs_iput ip) fun _ => .ret ?_
      rw [heldFst_none, add_zero, add_sub_cancel_right]
    · exact .ret rfl
  | cons elem rest ih =>
    refine .skip (Fs.ilock_all ip) fun _ => ?_
    refine .step trivial fun d => ?_
    split
    · exact refs_iunlockput_back (add_zero h)
    · split
      · exact .step trivial fun _ => .ret rfl
      · refine .bind (refs_dirlookup ip elem) fun found => ?_
        rcases found with - | ⟨next, off⟩
        · rw [heldFst_none, add_zero]
          exact refs_iunlockput_back (add_zero h)
        · rw [heldFst_some, add_right_comm]
          refine .bind (refs_iunlockput ip) fun _ => ?_
          rw [add_sub_cancel_right]
          exact ih next elem

theorem refs_namex (nameiparent : Bool) :
    RefTriple sb p own h (Fs.namex sb cwd path nameiparent) fun found => h + heldFst found := by
  refine .bind (m := fun ip => h + held (some ip)) ?_ fun ip => ?_
  · unfold Fs.namexStart
    split
    · exact refs_iget ROOTINO
    · exact refs_idup cwd
  · exact refs_namexFrom nameiparent _ ip []

theorem refs_namei : RefTriple sb p own h (Fs.namei sb cwd path) fun found => h + held found :=
  .bind (refs_namex cwd path false) fun _ => .ret rfl

theorem refs_nameiparent :
    RefTriple sb p own h (Fs.nameiparent sb cwd path) fun found => h + heldFst found :=
  refs_namex cwd path true

/-! ### Links -/

theorem refs_sysLinkBad :
    RefTriple sb p own (h + held (some ip)) (Fs.sysLinkBad ip) fun _ => h := by
  refine .skip (Fs.ilock_all ip) fun _ => ?_
  refine .step trivial fun _ => ?_
  refine .step trivial fun _ => ?_
  exact refs_iunlockput_back rfl

theorem refs_sysLinkEntry (new : List UInt8) :
    RefTriple sb p own (h + held (some ip)) (Fs.sysLinkEntry sb cwd ip new) fun _ => h := by
  refine .bind (refs_nameiparent cwd new) fun found => ?_
  match found with
  | none =>
    rw [heldFst_none, add_zero]
    exact refs_sysLinkBad ip
  | some (dp, name) =>
    rw [heldFst_some]
    refine .skip (Fs.ilock_all dp) fun _ => ?_
    refine .step trivial fun inum => ?_
    refine .bind (refs_dirlink dp name inum) fun linked => ?_
    refine .bind (refs_iunlockput dp) fun _ => ?_
    rw [add_sub_cancel_right]
    split
    · exact .bind (refs_iput ip) fun _ => .ret (add_sub_cancel_right h _).symm
    · exact refs_sysLinkBad ip

/-- `sys_link` gives back all it takes. -/
theorem refs_sysLink (old new : List UInt8) :
    RefTriple sb p own h (Fs.sysLink sb cwd old new) fun _ => h := by
  refine .bind (refs_namei cwd old) fun found => ?_
  cases found with
  | none => exact .ret (by rw [held_none, add_zero])
  | some ip =>
    refine .skip (Fs.ilock_all ip) fun _ => ?_
    refine .step trivial fun d => ?_
    split
    · exact refs_iunlockput_back rfl
    · refine .step trivial fun _ => ?_
      refine .step trivial fun _ => ?_
      refine .step trivial fun _ => ?_
      exact refs_sysLinkEntry cwd ip new

theorem refs_sysUnlinkEnd :
    RefTriple sb p own (h + held (some dp) + held (some ip)) (Fs.sysUnlinkEnd dp ip)
      fun _ => h := by
  rw [add_right_comm]
  refine .bind (refs_iunlockput dp) fun _ => ?_
  rw [add_sub_cancel_right]
  refine .step trivial fun _ => ?_
  refine .step trivial fun _ => ?_
  exact refs_iunlockput_back rfl

theorem refs_sysUnlinkEntry (off : Nat) :
    RefTriple sb p own (h + held (some dp) + held (some ip)) (Fs.sysUnlinkEntry sb dp ip off)
      fun _ => h := by
  refine .skip (Fs.writei_all sb dp _ off _) fun r => ?_
  split
  · exact .stop
  · refine .step trivial fun d => ?_
    split
    · refine .step trivial fun _ => ?_
      refine .step trivial fun _ => ?_
      exact refs_sysUnlinkEnd dp ip
    · exact refs_sysUnlinkEnd dp ip

theorem refs_sysUnlinkFound (off : Nat) :
    RefTriple sb p own (h + held (some dp) + held (some ip)) (Fs.sysUnlinkFound sb dp ip off)
      fun _ => h := by
  refine .skip (Fs.ilock_all ip) fun _ => ?_
  refine .step trivial fun d => ?_
  split
  · exact .stop
  · refine .skip (Fs.isBusyDir_all sb ip) fun busy => ?_
    split
    · refine .bind (refs_iunlockput ip) fun _ => ?_
      rw [add_sub_cancel_right]
      exact refs_iunlockput_back rfl
    · exact refs_sysUnlinkEntry dp ip off

/-- So does `sys_unlink`. -/
theorem refs_sysUnlink : RefTriple sb p own h (Fs.sysUnlink sb cwd path) fun _ => h := by
  refine .bind (refs_nameiparent cwd path) fun found => ?_
  match found with
  | none => exact .ret (by rw [heldFst_none, add_zero])
  | some (dp, name) =>
    refine .skip (Fs.ilock_all dp) fun _ => ?_
    split
    · exact refs_iunlockput_back rfl
    · refine .bind (refs_dirlookup dp name) fun found => ?_
      match found with
      | none =>
        rw [heldFst_none, add_zero]
        exact refs_iunlockput_back rfl
      | some (ip, off) => exact refs_sysUnlinkFound dp ip off

/-! ### Creating -/

theorem refs_createDots : RefTriple sb p own h (Fs.createDots sb dp ip) fun _ => h := by
  refine .step trivial fun _ => ?_
  refine .step trivial fun _ => ?_
  refine .step trivial fun inum => ?_
  refine .bind (refs_dirlink ip Fs.dot inum) fun linked => ?_
  split
  · refine .step trivial fun parent => ?_
    refine .bind (refs_dirlink ip Fs.dotdot parent) fun linked => ?_
    split
    · exact .ret rfl
    · exact .stop
  · exact .stop

theorem refs_createEntry :
    RefTriple sb p own (h + held (some dp) + held (some ip)) (Fs.createEntry sb dp ip name)
      fun ip => h + held (some ip) := by
  refine .step trivial fun inum => ?_
  refine .bind (refs_dirlink dp name inum) fun linked => ?_
  split
  · rw [add_right_comm]
    exact refs_iunlockput_back rfl
  · exact .stop

theorem refs_createNew :
    RefTriple sb p own (h + held (some dp)) (Fs.createNew sb dp name type major minor)
      fun ip => h + held (some ip) := by
  refine .bind (refs_ialloc type) fun ip => ?_
  refine .skip (Fs.ilock_all ip) fun _ => ?_
  refine .step trivial fun _ => ?_
  refine .step trivial fun _ => ?_
  split
  · exact .bind (refs_createDots dp ip) fun _ => refs_createEntry dp ip name
  · exact refs_createEntry dp ip name

theorem refs_createFound :
    RefTriple sb p own (h + held (some dp) + held (some ip)) (Fs.createFound dp ip type)
      fun found => h + held found := by
  rw [add_right_comm]
  refine .bind (refs_iunlockput dp) fun _ => ?_
  rw [add_sub_cancel_right]
  refine .skip (Fs.ilock_all ip) fun _ => ?_
  refine .step trivial fun d => ?_
  split
  · exact .ret rfl
  · exact refs_iunlockput_back (by rw [held_none, add_zero])

/-- `create` returns with a reference to its result. -/
theorem refs_create :
    RefTriple sb p own h (Fs.create sb cwd path type major minor) fun found => h + held found := by
  refine .bind (refs_nameiparent cwd path) fun found => ?_
  match found with
  | none => exact .ret (by rw [heldFst_none, held_none])
  | some (dp, name) =>
    refine .skip (Fs.ilock_all dp) fun _ => ?_
    refine .bind (refs_dirlookup dp name) fun found => ?_
    match found with
    | some (ip, off) => exact refs_createFound dp ip type
    | none =>
      rw [heldFst_none, add_zero]
      exact .bind (refs_createNew dp name type major minor) fun ip => .ret rfl

theorem refs_sysMake :
    RefTriple sb p own h (Fs.sysMake sb cwd path type major minor) fun _ => h := by
  refine .bind (refs_create cwd path type major minor) fun found => ?_
  cases found with
  | none => exact .ret (by rw [held_none, add_zero])
  | some ip => exact refs_iunlockput_back rfl

/-! ### Opening -/

theorem refs_sysOpenInode (omode : BitVec 32) :
    RefTriple sb p own h (sysOpenInode sb cwd path omode) fun found => h + held found := by
  unfold sysOpenInode
  split
  · exact refs_create cwd path _ _ _
  · refine .bind (refs_namei cwd path) fun found => ?_
    cases found with
    | none => exact .ret rfl
    | some ip =>
      refine .skip (Fs.ilock_all ip) fun _ => ?_
      refine .step trivial fun d => ?_
      split
      · exact refs_iunlockput_back (by rw [held_none, add_zero])
      · exact .ret rfl

theorem refs_sysChdirInode :
    RefTriple sb p own h (sysChdirInode sb cwd path) fun found => h + held found := by
  refine .bind (refs_namei cwd path) fun found => ?_
  cases found with
  | none => exact .ret rfl
  | some ip =>
    refine .skip (Fs.ilock_all ip) fun _ => ?_
    refine .step trivial fun d => ?_
    split
    · exact refs_iunlockput_back (by rw [held_none, add_zero])
    · exact .step trivial fun _ => .ret rfl

end Xv6.Files
