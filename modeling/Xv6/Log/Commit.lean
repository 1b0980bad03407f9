import Xv6.Log.LogOps

/-!
# The code of the log under interleaving

The code of `log.c` as it runs among other processes: `initlog` on a disk whose log is clear,
`log_write`, and the group commit in `end_op`. Each piece is verified from the rules of
`Xv6.Log.BufferOps` and `Xv6.Log.LogOps`; `codeSafe` collects them.
-/

namespace Xv6.Log

open Interleave List

variable {sb : Superblock} {tight : Prop} {p : Pid} {own : Own}

theorem inLog_header (hsize : LOGSIZE ≤ sb.nlog) : InLog sb sb.logstart := by
  have : LOGSIZE = 30 := rfl
  unfold InLog OutsideLog
  omega

variable {tail : Nat}

theorem inLog_index (hsize : tail + 1 < sb.nlog) : InLog sb (sb.logstart + tail + 1) := by
  unfold InLog OutsideLog
  omega

/-- The in-memory header that a committing process reads is its transaction. -/
theorem triple_readLh_commit (hrole : own.role = .commit) :
    Triple sb tight p own (.perform .readLh) fun lh own' =>
      own' = own ∧ lh = own.work.lh := by
  refine triple_readLh.mono ?_
  rintro lh _ ⟨rfl, s, g, hinv, rfl, rfl⟩
  exact ⟨rfl, (hinv.data.work p hrole).lh⟩

theorem triple_readLh_boot (hrole : own.role = .boot) :
    Triple sb tight p own (.perform .readLh) fun lh own' =>
      own' = own ∧ lh = LogHeader.empty := by
  refine triple_readLh.mono ?_
  rintro lh _ ⟨rfl, s, g, hinv, rfl, rfl⟩
  exact ⟨rfl, (hinv.log.clear (hinv.log.not_booted hrole)).1⟩

theorem triple_installTrans_boot (hrole : own.role = .boot) :
    Moves sb tight p own (installTrans sb.logstart) own := by
  refine .bind (triple_readLh_boot hrole) ?_
  rintro header own ⟨rfl, rfl⟩
  exact .ret rfl

/-- What a process knows about its commit when it is over. -/
def Work.finished (w : Work) : Prop := (w.cleared = true ∨ w.lh = .empty) ∧ w.unpinned = 0

section

variable (fuel : Nat) (hsize : LOGSIZE ≤ sb.nlog) (hfree : own.hands.moving = none)
  (hclean : own.dirty = none)
include hfree hclean

section

variable (hrole : own.role = .commit)
include hrole

variable {post : Unit → Own → Prop} {rest : Code Unit}

section

variable (hunpinned : own.work.unpinned = 0) (hwritten : own.work.written = tail)
include hunpinned hwritten

/-- One round of `write_log`. That the first `bread` succeeds shows that the transaction fits. -/
theorem triple_writeLog_round (htail : tail < own.work.lh.block.length)
    (hin : InLog sb (sb.logstart + tail + 1))
    (hrest : own.work.lh.block.length < NBUF → Triple sb tight p
      { own with work := { own.work with written := tail + 1 } } rest post) :
    Triple sb tight p own (do
      let toBuf ← LogBuffers.bread (sb.logstart + tail + 1)
      let fromBuf ← LogBuffers.bread own.work.lh.block[tail]
      let contents ← LogBuffers.data fromBuf
      LogBuffers.setData toBuf contents
      LogBuffers.bwrite toBuf
      LogBuffers.brelse fromBuf
      LogBuffers.brelse toBuf
      rest) post := by
  refine .bind (triple_bread hfree) ?_
  rintro toBuf _ ⟨rfl, hfits⟩
  refine .bind (triple_bread rfl) ?_
  rintro fromBuf _ ⟨rfl, -⟩
  refine .bind triple_data ?_
  rintro contents _ ⟨rfl, s, g, hinv, hown, rfl⟩
  have hbegan : own.work.began own.work.lh.block[tail] = some (s.bcache.buf fromBuf).data := by
    have hmem : own.work.lh.block[tail] ∈ own.work.lh.block.drop own.work.unpinned := by
      rw [hunpinned]
      exact getElem_mem htail
    have := hinv.data_pending (p := p)
      (by rw [hown]; exact mem_cons_self) (by rw [hown]; exact hrole) (by rw [hown]; exact hmem)
    rwa [hown] at this
  refine .bind (triple_setData_log (mem_cons_of_mem _ mem_cons_self) hin hclean) ?_
  rintro _ _ rfl
  refine .bind (triple_bwrite_log (n := tail + 1) (mem_cons_of_mem _ mem_cons_self) hin
    rfl (.inr hrole) ?_ ?_) ?_
  · intro hboot
    rw [show own.role = .boot from hboot] at hrole
    cases hrole
  · intro _ j _ hj
    rcases Nat.lt_succ_iff_lt_or_eq.mp hj with hlt | rfl
    · right
      show _ ∧ j < own.work.written
      omega
    · exact .inl ⟨rfl, hbegan⟩
  · rintro _ _ rfl
    refine .bind (triple_brelse mem_cons_self rfl rfl) ?_
    rintro _ _ rfl
    rw [erase_cons_head]
    refine .bind (triple_brelse mem_cons_self rfl rfl) ?_
    rintro _ _ rfl
    rw [erase_cons_head]
    have := hrest (hfits hrole hunpinned hin)
    rwa [← hclean, ← hfree]

include hsize in
theorem triple_writeLogFrom (htail : tail ≤ own.work.lh.block.length)
    (hfuel : own.work.lh.block.length < tail + fuel)
    (hfits : 0 < tail → own.work.lh.block.length < NBUF) :
    Triple sb tight p own (writeLogFrom sb.logstart fuel tail) fun _ own' =>
      own' = { own with work := { own.work with written := own.work.lh.block.length } } ∧
        (0 < own.work.lh.block.length → own.work.lh.block.length < NBUF) := by
  induction fuel generalizing tail own with
  | zero => omega
  | succ fuel ih =>
    refine .bind (triple_readLh_commit hrole) ?_
    rintro header own ⟨rfl, rfl⟩
    rcases lt_or_ge tail own.work.lh.block.length with hlt | hge
    · have hget : own.work.lh.block[tail]? = some own.work.lh.block[tail] := getElem?_eq_getElem hlt
      have hin : InLog sb (sb.logstart + tail + 1) := by
        have hbuf : NBUF = 30 := rfl
        have hlog : LOGSIZE = 30 := rfl
        refine inLog_index ?_
        rcases Nat.eq_zero_or_pos tail with rfl | hpos
        · omega
        · have := hfits hpos
          omega
      simp only [hget]
      refine triple_writeLog_round hfree hclean hrole hunpinned hwritten hlt hin ?_
      intro hnbuf
      exact ih hfree hclean hrole hunpinned rfl hlt (by
        show own.work.lh.block.length < tail + 1 + fuel
        omega) (fun _ => hnbuf)
    · have hnone : own.work.lh.block[tail]? = none := getElem?_eq_none hge
      have heq : tail = own.work.lh.block.length := by omega
      simp only [hnone]
      refine .ret ⟨?_, ?_⟩
      · rw [← heq, ← hwritten]
      · rw [← heq] at hfits ⊢
        exact hfits

end

variable (hcleared : own.work.cleared = false)
  (hwritten : own.work.written = own.work.lh.block.length)
  (hinstalled : own.work.installed = tail) (hunpinned : own.work.unpinned = tail)
  (hfits : own.work.lh.block.length < sb.nlog)
include hcleared hwritten hinstalled hunpinned hfits

/-- One round of `install_trans` copies one block from the log to its home. -/
theorem triple_installTrans_round (htail : tail < own.work.lh.block.length)
    (hrest : Triple sb tight p
      { own with work := { own.work with installed := tail + 1, unpinned := tail + 1 } }
        rest post) :
    Triple sb tight p own (do
      let lbuf ← LogBuffers.bread (sb.logstart + tail + 1)
      let dbuf ← LogBuffers.bread own.work.lh.block[tail]
      let contents ← LogBuffers.data lbuf
      LogBuffers.setData dbuf contents
      LogBuffers.bwrite dbuf
      LogBuffers.bunpin dbuf
      LogBuffers.brelse lbuf
      LogBuffers.brelse dbuf
      rest) post := by
  subst hunpinned
  have hin : InLog sb (sb.logstart + own.work.unpinned + 1) := inLog_index (by omega)
  refine .bind (triple_bread hfree) ?_
  rintro lbuf _ ⟨rfl, -⟩
  refine .bind (triple_bread rfl) ?_
  rintro dbuf _ ⟨rfl, -⟩
  refine .bind triple_data ?_
  rintro contents _ ⟨rfl, s, g, hinv, hown, rfl⟩
  have hbegan : own.work.began own.work.lh.block[own.work.unpinned] =
      some (s.bcache.buf lbuf).data := by
    have hwork := hinv.data.work p (by rw [hown]; exact hrole)
    rw [hown] at hwork
    rw [hinv.data_inLog
      (by rw [hown]; exact mem_cons_of_mem _ mem_cons_self) hin (by rw [hown]; exact hclean)]
    exact hwork.written own.work.unpinned htail (hwritten ▸ htail)
  have hhome : OutsideLog sb.logstart sb.nlog own.work.lh.block[own.work.unpinned] := by
    have hwork := hinv.data.work p (by rw [hown]; exact hrole)
    rw [hown] at hwork
    refine hinv.log.outside _ ?_
    rw [hwork.lh]
    exact getElem_mem htail
  have hmem : own.work.lh.block[own.work.unpinned] ∈ own.work.lh.block.drop own.work.unpinned := by
    rw [drop_eq_getElem_cons htail]
    exact mem_cons_self
  refine .bind (triple_setData_home mem_cons_self hrole hmem hbegan) ?_
  rintro _ _ rfl
  refine .bind (triple_bwrite_home hclean hrole hfits (by
    rwa [hinstalled]) ?_ (le_of_eq hinstalled.symm) hcleared) ?_
  · simp only [hinstalled]
    exact mem_cons_self
  · rintro _ _ rfl
    refine .bind (triple_bunpin hrole htail mem_cons_self) ?_
    rintro _ _ rfl
    refine .bind (triple_brelse (mem_cons_of_mem _ mem_cons_self) rfl hclean) ?_
    rintro _ _ rfl
    have hne : (dbuf, own.work.lh.block[own.work.unpinned]) ≠
        (lbuf, sb.logstart + own.work.unpinned + 1) := by
      intro heq
      exact hin ((Prod.mk.inj heq).2 ▸ hhome)
    rw [erase_cons_tail (by simpa using hne), erase_cons_head]
    refine .bind (triple_brelse mem_cons_self rfl hclean) ?_
    rintro _ _ rfl
    rw [erase_cons_head]
    simp only [hinstalled]
    rwa [← hfree]

theorem triple_installTransFrom (htail : tail ≤ own.work.lh.block.length)
    (hfuel : own.work.lh.block.length < tail + fuel) :
    Moves sb tight p own (installTransFrom sb.logstart fuel tail) { own with work := { own.work with
        installed := own.work.lh.block.length
        unpinned := own.work.lh.block.length } } := by
  induction fuel generalizing tail own with
  | zero => omega
  | succ fuel ih =>
    refine .bind (triple_readLh_commit hrole) ?_
    rintro header own ⟨rfl, rfl⟩
    rcases lt_or_ge tail own.work.lh.block.length with hlt | hge
    · have hget : own.work.lh.block[tail]? = some own.work.lh.block[tail] := getElem?_eq_getElem hlt
      simp only [hget]
      refine triple_installTrans_round hfree hclean hrole hcleared hwritten hinstalled hunpinned
        hfits hlt ?_
      exact ih hfree hclean hrole hcleared hwritten rfl rfl hfits hlt (by
        show own.work.lh.block.length < tail + 1 + fuel
        omega)
    · have hnone : own.work.lh.block[tail]? = none := getElem?_eq_none hge
      have heq : own.work.lh.block.length = tail := by omega
      simp only [hnone]
      refine .ret ?_
      rw [heq]
      nth_rewrite 1 [← hinstalled]
      rw [← hunpinned]

end

include hsize

theorem triple_writeHead (hwriter : Writer own.role) :
    Moves sb tight p own (writeHead sb.logstart) own := by
  refine .bind (triple_bread hfree) ?_
  rintro i _ ⟨rfl, -⟩
  refine .bind triple_data ?_
  rintro contents _ ⟨rfl, -⟩
  refine .bind triple_readLh ?_
  rintro header _ ⟨rfl, s, g, hinv, hown, rfl⟩
  refine .bind (triple_setData_log mem_cons_self (inLog_header hsize) hclean) ?_
  rintro _ _ rfl
  have hboot : own.role = .boot → s.lh = .empty := by
    intro hrole
    have hrole' : roles g p = .boot := by rw [roles, hown]; exact hrole
    exact (hinv.log.clear (hinv.log.not_booted hrole')).1
  refine .bind (triple_bwrite_log (n := own.work.written) mem_cons_self (inLog_header hsize)
    rfl hwriter ?_ ?_) ?_
  · intro hrole
    refine ⟨rfl, ?_⟩
    rw [LogHeader.diskN_encode, hboot hrole]
    rfl
  · intro _ j _ hj
    exact .inr ⟨by omega, hj⟩
  · rintro _ _ rfl
    refine (triple_brelse mem_cons_self rfl rfl).mono ?_
    rintro _ _ rfl
    rw [erase_cons_head, ← hclean, ← hfree]

theorem triple_commit (hrole : own.role = .commit) (hstarted : own.work.started) :
    Triple sb tight p own (commit sb.logstart) fun _ own' =>
      ∃ w : Work, w.finished ∧ own' = { own with work := w } := by
  obtain ⟨hwritten, hinstalled, hunpinned, hcleared⟩ := hstarted
  have hfuel : own.work.lh.block.length < 0 + (LOGSIZE + 1) := by
    have := own.work.lh.fits
    omega
  refine .bind (triple_readLh_commit hrole) ?_
  rintro header own ⟨rfl, rfl⟩
  split
  next hpos =>
    refine .bind (triple_writeLogFrom (LOGSIZE + 1) hsize hfree hclean hrole hunpinned hwritten
      (Nat.zero_le _) hfuel (fun h => absurd h (by omega))) ?_
    rintro _ _ ⟨rfl, hnbuf⟩
    have hfits : own.work.lh.block.length < sb.nlog := by
      have : NBUF = LOGSIZE := rfl
      omega
    refine .bind (triple_writeHead hsize hfree hclean (.inr hrole)) ?_
    rintro _ _ rfl
    refine .bind (triple_installTransFrom (LOGSIZE + 1) hfree hclean hrole hcleared rfl hinstalled
      hunpinned hfits (Nat.zero_le _) hfuel) ?_
    rintro _ _ rfl
    refine .bind (triple_setLh_commit hrole rfl rfl hcleared) ?_
    rintro _ _ rfl
    refine .mono (triple_writeHead hsize hfree hclean (.inr hrole)) ?_
    rintro _ _ rfl
    exact ⟨_, ⟨.inl rfl, rfl⟩, rfl⟩
  next hzero =>
    have hnil : own.work.lh.block = [] := eq_nil_of_length_eq_zero (Nat.eq_zero_of_not_pos hzero)
    exact .ret ⟨own.work, ⟨.inr (LogHeader.eq_empty hnil), hunpinned⟩, rfl⟩

theorem triple_endOpCode (hrole : own.role = .op) :
    Triple sb tight p own (endOpCode sb) fun _ own' =>
      own'.hands = own.hands ∧ own'.dirty = none ∧ own'.role = .out := by
  refine .bind (triple_endOp hrole) ?_
  intro doCommit own' hown'
  cases doCommit with
  | false =>
    obtain rfl : own' = _ := by simpa using hown'
    exact .ret ⟨rfl, hclean, rfl⟩
  | true =>
    obtain ⟨w, hstarted, rfl⟩ : ∃ w : Work, w.started ∧ own' = _ := by simpa using hown'
    refine .bind (triple_commit hsize hfree hclean rfl hstarted) ?_
    rintro _ _ ⟨w', hfinished, rfl⟩
    refine (triple_endCommit rfl hfinished.1 hfinished.2).mono ?_
    rintro _ _ rfl
    exact ⟨rfl, hclean, rfl⟩

theorem triple_readHead_boot (hrole : own.role = .boot) :
    Moves sb tight p own (readHead sb.logstart) own := by
  refine .bind (triple_bread hfree) ?_
  rintro i _ ⟨rfl, -⟩
  refine .bind triple_data ?_
  rintro contents _ ⟨rfl, s, g, hinv, hown, rfl⟩
  have hdecode : LogHeader.decode (s.bcache.buf i).data = some .empty := by
    have hrole' : roles g p = .boot := by rw [roles, hown]; exact hrole
    have hbooted := hinv.log.not_booted hrole'
    rw [hinv.data_inLog (by rw [hown]; exact mem_cons_self)
      (inLog_header hsize) (by rw [hown]; exact hclean)]
    exact LogHeader.decode_of_diskN_eq_zero (hinv.log.clear hbooted).2.2
  simp only [hdecode]
  refine .bind (triple_setLh_boot hrole) ?_
  rintro _ _ rfl
  refine .mono (triple_brelse mem_cons_self rfl hclean) ?_
  rintro _ _ rfl
  rw [erase_cons_head, ← hfree]

theorem triple_initlog (hrole : own.role = .boot) : Moves sb tight p own (initlog sb) own := by
  refine .bind (triple_readHead_boot hsize hfree hclean hrole) ?_
  rintro _ own rfl
  refine .bind (triple_installTrans_boot hrole) ?_
  rintro _ own rfl
  refine .bind (triple_setLh_boot hrole) ?_
  rintro _ own rfl
  exact triple_writeHead hsize hfree hclean (.inl hrole)

end

theorem triple_logWrite {i : BufIdx} {b : Nat} (hgeometry : tight → sb.nlog ≤ LOGSIZE)
    (hrole : own.role = .op) (hheld : (i, b) ∈ own.hands.held)
    (hout : OutsideLog sb.logstart sb.nlog b) :
    Moves sb tight p own (logWrite i) own := by
  refine .bind (triple_checkSize hgeometry) ?_
  rintro _ own rfl
  refine .bind (triple_checkTrans hrole) ?_
  rintro _ own rfl
  exact triple_logInsert hrole hheld hout

/-- The first call of a process: the first one boots the file system, the others wait. -/
theorem triple_start (hsize : LOGSIZE ≤ sb.nlog) (hhands : own.hands = .none)
    (hclean : own.dirty = none) (hrole : own.role = bootRole p) :
    Moves sb tight p own (startCode sb p) { own with role := .out } := by
  unfold startCode
  have hfree : own.hands.moving = none := by rw [hhands]; rfl
  by_cases hp : p = initPid
  · have hboot : own.role = .boot := by simp [hrole, bootRole, hp]
    rw [if_pos hp]
    refine .bind (triple_initlog hsize hfree hclean hboot) ?_
    rintro _ own rfl
    exact triple_finishBoot hboot
  · have hunborn : own.role = .unborn := by simp [hrole, bootRole, hp]
    rw [if_neg hp]
    exact triple_awaitBoot hunborn

theorem codeSafe (hsize : LOGSIZE ≤ sb.nlog) (hgeometry : tight → sb.nlog ≤ LOGSIZE) :
    (discipline sb tight).CodeSafe := by
  refine Discipline.codeSafe_of_calls ?_
  intro p label own call hidle
  cases label with
  | unborn =>
    obtain ⟨hhands, hclean, hrole⟩ := hidle
    cases call with
    | start =>
      refine .made ?_
      refine .bind (triple_start hsize hhands hclean hrole) ?_
      rintro _ _ rfl
      exact .ret ⟨hhands, hclean, rfl⟩
    | _ => exact .refused
  | running held inOp =>
    obtain ⟨hhands, hclean, hrole⟩ := hidle
    have hfree : own.hands.moving = none := by rw [hhands]
    have hheld : own.hands.held = held := by rw [hhands]
    cases call with
    | start => exact .refused
    | beginOp =>
      cases inOp with
      | true => exact .refused
      | false =>
        refine .made (.bind (triple_beginOp hrole) ?_)
        rintro _ _ rfl
        exact .ret ⟨hhands, hclean, rfl⟩
    | endOp =>
      refine .guard fun hin => .made ?_
      refine .bind (triple_endOpCode hsize hfree hclean (by rw [hrole, if_pos hin])) ?_
      rintro _ own' ⟨hhands', hclean', hrole'⟩
      exact .ret ⟨hhands'.trans hhands, hclean', hrole'⟩
    | bread blockno =>
      refine .made (.bind (triple_bread hfree) ?_)
      rintro i _ ⟨rfl, -⟩
      exact .ret ⟨by rw [hheld], hclean, hrole⟩
    | brelse buf =>
      refine .guard fun hmem => .made ?_
      refine .bind (triple_brelse (hheld ▸ hmem) hfree hclean) ?_
      rintro _ _ rfl
      exact .ret ⟨by rw [hheld], hclean, hrole⟩
    | store buf block =>
      refine .guard fun ⟨hin, hmem, hout⟩ => .made ?_
      refine .bind (triple_store (hheld ▸ hmem) hout (by rw [hrole, if_pos hin]) hclean) ?_
      rintro _ own rfl
      exact .ret ⟨hhands, hclean, hrole⟩
    | logWrite buf =>
      refine .guard fun ⟨hin, hmem, hout⟩ => .made ?_
      refine .bind (triple_logWrite hgeometry (by rw [hrole, if_pos hin]) (hheld ▸ hmem) hout) ?_
      rintro _ own rfl
      exact .ret ⟨hhands, hclean, hrole⟩

end Xv6.Log
