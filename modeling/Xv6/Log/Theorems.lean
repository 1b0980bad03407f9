import Xv6.Log.Commit

/-!
# What holds in every run of the log

The results about whole runs, for any number of processes and any schedule. All of them
start where the machine is switched on, with `initlog` still to run.

* `group_commit`: the group commit excludes new operations, loses no logged block, and never
  reaches the panics that guard its protocol, if the log on disk is clear at boot. After a
  recovery it can lose one (`group_commit_loses_update`).
* `refcnt_exact`: reference counts are exact if the log on disk is clear at boot. With a
  committed transaction there, recovery unpins buffers that it never pinned
  (`refcnt_wraps_after_recovery`).
* `reservation_sound`: the log never overflows if `begin_op` leaves two blocks of the log free
  after what it reserves. The admission test of the source allows ten blocks for each
  operation up to `LOGSIZE`, which is more than the log holds
  (`reservation_overflows`).
-/

namespace Xv6.Log

open Interleave Discipline Machine

section Invariant

variable {sb : Superblock} (tight : Prop) {disk : Disk} {config : Config Pid Op Res State Label}

/-- The machine starts in the invariant if the log on disk is clear. -/
theorem holds_powerOn (hsize : LOGSIZE ≤ sb.nlog)
    (hclear : LogHeader.diskN (disk sb.logstart) = 0) :
    (discipline sb tight).Holds (powerOn disk) := by
  let g : Pid → Own := fun p => ⟨.none, none, bootRole p, ⟨.empty, fun _ => none, 0, 0, 0, false⟩⟩
  have hrole : ∀ p, (bootRole p).isOp = false ∧ bootRole p ≠ .commit ∧ bootRole p ≠ .op := by
    intro p
    unfold bootRole
    split <;> simp [Role.isOp]
  refine ⟨⟨g, ?_, fun p => ⟨rfl, rfl, rfl⟩⟩, by simp [powerOn]⟩
  refine ⟨RefsOk.init, fun p i => ?_, ?_, ?_, ?_⟩
  · simp [powerOn, State.boot, g, Hands.refs, Hands.none]
  · refine ⟨?_, ?_, .inl rfl, ?_, ?_, fun _ p => rfl, ?_, fun _ => ⟨rfl, rfl, hclear⟩, ?_,
      ?_, ?_, ?_⟩
    · simp [powerOn, State.boot, roles, g, (hrole _).1]
    · exact fun p hp => absurd hp (hrole p).2.1
    · simp [powerOn, State.boot]
    · simp [powerOn, State.boot]
    · simp [powerOn, State.boot]
    · exact List.nodup_nil
    · simp [powerOn, State.boot]
    · simp [powerOn, State.boot]
    · exact fun _ => ⟨rfl, by simp [powerOn, State.boot]⟩
  · refine ⟨?_, ?_, ?_, ?_⟩
    · simp [powerOn, State.boot, Bcache.init]
    · simp [g]
    · exact fun p hp => absurd hp (hrole p).2.1
    · simp [powerOn, State.boot]
  · intro _
    refine ⟨?_, fun p hp => absurd hp (hrole p).2.2⟩
    have : LOGSIZE = 30 := rfl
    simp [powerOn, State.boot, roles, g, budget, (hrole _).1]
    omega

/-- The invariant holds in every configuration that is reached from there. -/
theorem holds_run (hsize : LOGSIZE ≤ sb.nlog) (hgeometry : tight → sb.nlog ≤ LOGSIZE)
    (hclear : LogHeader.diskN (disk sb.logstart) = 0)
    (h : (machine sb).Run (discipline sb tight).Meets (powerOn disk) config) :
    (discipline sb tight).Holds config :=
  holds_of_run (codeSafe hsize hgeometry) (holds_powerOn tight hsize hclear) h

/-- Every schedule at all is a run for the discipline without reservation. -/
theorem meets_any {Meets : Config Pid Op Res State Label → Event Pid Call Unit → Prop}
    (h : (machine sb).Run Meets (powerOn disk) config) :
    (machine sb).Run (discipline sb False).Meets (powerOn disk) config :=
  h.mono fun c e _ =>
    meets_of_atStep (fun _ _ _ _ hf => hf.elim) (atStep_true c e)

end Invariant

/-! ### Group commit -/

/-- Group commit loses no update and admits no intruder. While a commit is in progress, no
operation is under way and no process is about to append to the log; at most one process
commits; the log never names a block twice; every finished commit has left on disk, for
each block that its operations logged, what the cache held when it began; and the panics
of `end_op` and of `log_write` outside an operation are unreachable. -/
theorem group_commit {sb : Superblock} (hsize : LOGSIZE ≤ sb.nlog) {disk : Disk}
    (hclear : LogHeader.diskN (disk sb.logstart) = 0) {config : Config Pid Op Res State Label}
    (h : (machine sb).Run (fun _ _ => True) (powerOn disk) config) :
    (config.state.committing = true → config.state.outstanding = 0 ∧
      ∀ p i next, config.prog p ≠ .op (.logInsert i) next) ∧
    (∀ p ∈ config.state.committers, ∀ q ∈ config.state.committers, p = q) ∧
    config.state.lh.block.Nodup ∧
    (∀ commit ∈ config.state.commits, ∀ b ∈ commit.blocks, commit.began b = some (commit.disk b)) ∧
    config.panicked ≠ some "log[dev].committing" ∧
    config.panicked ≠ some "log_write outside of trans" := by
  have hholds := holds_run False hsize (fun hf => hf.elim) hclear (meets_any h)
  obtain ⟨g, hinv, hready⟩ := hholds.state
  refine ⟨?_, ?_, hinv.log.nodup, hinv.data.commits, ?_, ?_⟩
  · intro hcommitting
    refine ⟨hinv.log.quiet hcommitting, ?_⟩
    intro p i next hprog
    have hp := hready p
    rw [hprog] at hp
    have hidle := hinv.log.not_committing hp.1
    rw [hcommitting] at hidle
    cases hidle
  · intro p hp q hq
    rcases hinv.log.committers with hnone | ⟨c, hc, -⟩
    · rw [hnone] at hp
      cases hp
    · rw [hc, List.mem_singleton] at hp hq
      rw [hp, hq]
  · intro hpanic
    rcases hholds.panicked _ hpanic with hm | ⟨-, hm⟩ <;> simp at hm
  · intro hpanic
    rcases hholds.panicked _ hpanic with hm | ⟨-, hm⟩ <;> simp at hm

/-- The geometry that `mkfs` writes. -/
def mkfsSuperblock : Superblock := ⟨2, LOGSIZE⟩

/-- A disk of zeros; its log is clear. -/
def blankDisk : Disk := fun _ => Bytes.Buffer.zeros

theorem blankDisk_clear : LogHeader.diskN (blankDisk mkfsSuperblock.logstart) = 0 := by
  rw [blankDisk, LogHeader.diskN, Bytes.Buffer.readLE_zeros]
  rfl

/-- The events in which process `n` starts a call and then runs for some steps. -/
def callSteps (n : Nat) (call : Call) (steps : Nat) : List (Event Pid Call Unit) :=
  .call (Fin.ofNat NPROC n) call () :: List.replicate steps (.step (Fin.ofNat NPROC n) ())

/-- Buffer `n`. -/
def bufAt (n : Nat) : BufIdx := Fin.ofNat NBUF n

/-- One process boots, logs a changed block in an operation, and commits it. -/
def oneCommit : List (Event Pid Call Unit) :=
  callSteps 0 .start 19 ++ callSteps 0 .beginOp 1 ++ callSteps 0 (.bread 46) 3 ++
    callSteps 0 (.store (bufAt 1, 46) (Bytes.Buffer.zeros.writeLE 4 0 7)) 1 ++
    callSteps 0 (.logWrite (bufAt 1, 46)) 3 ++ callSteps 0 (.brelse (bufAt 1, 46)) 2 ++
    callSteps 0 .endOp 53

theorem group_commit_oneCommit :
    ∃ config, (machine mkfsSuperblock).Run (fun _ _ => True) (powerOn blankDisk) config ∧
      config.state.commits.length = 1 ∧
      (∀ commit ∈ config.state.commits, ∀ b ∈ commit.blocks,
        commit.began b = some (commit.disk b)) := by
  have hplay : ((machine mkfsSuperblock).play (fun _ _ => true) oneCommit
      (powerOn blankDisk)).map (fun c => c.state.commits.length) = some 1 := by
    decide +kernel
  obtain ⟨config, hany, hcommits⟩ := exists_any_run hplay
  exact ⟨config, hany, hcommits, (group_commit le_rfl blankDisk_clear hany).2.2.2.1⟩

/-- A disk on which a transaction on block 46 has committed but is not yet installed. -/
def committedDisk : Disk := fun blockno =>
  if blockno = 2 then (⟨[46], by decide⟩ : LogHeader).encode Bytes.Buffer.zeros
  else Bytes.Buffer.zeros

/-- The first process boots from that disk and logs block 46 with a new content. It reads 29 other
blocks, so that all other buffers have been used since, and ends the operation. -/
def lostUpdate : List (Event Pid Call Unit) :=
  callSteps 0 .start 34 ++ callSteps 0 .beginOp 1 ++ callSteps 0 (.bread 46) 3 ++
    callSteps 0 (.store (bufAt 2, 46) (Bytes.Buffer.zeros.writeLE 4 0 7)) 1 ++
    callSteps 0 (.logWrite (bufAt 2, 46)) 3 ++ callSteps 0 (.brelse (bufAt 2, 46)) 2 ++
    ((List.range 27).map (· + 3) ++ [1, 0]).flatMap (fun i =>
      callSteps 0 (.bread (100 + i)) 3 ++ callSteps 0 (.brelse (bufAt i, 100 + i)) 2) ++
    callSteps 0 .endOp 53

/-- Recovery has unpinned the buffer of block 46 once too often, so that `log_write` leaves it with
count 0. `write_log` recycles it for a block of the log and reads block 46 from the disk again: the
commit returns, and what the cache held when it began is lost. -/
theorem group_commit_loses_update :
    ∃ config, (machine mkfsSuperblock).Run (fun _ _ => True) (powerOn committedDisk) config ∧
      config.panicked = none ∧ ∃ commit ∈ config.state.commits, ∃ b ∈ commit.blocks,
        commit.began b ≠ some (commit.disk b) := by
  have hplay : ((machine mkfsSuperblock).play (fun _ _ => true) lostUpdate
      (powerOn committedDisk)).map (fun c => (c.panicked, c.state.commits.map fun commit =>
        (commit.blocks, (commit.began 46).map (·.readLE 4 0), (commit.disk 46).readLE 4 0))) =
      some (none, [([46], some 7, 0)]) := by
    decide +kernel
  obtain ⟨config, hany, hvalue⟩ := exists_any_run hplay
  obtain ⟨hpanicked, hcommits⟩ := Prod.mk.inj hvalue
  obtain ⟨commit, hcommit, hrecord⟩ := List.mem_map.mp (hcommits ▸ List.mem_singleton_self _)
  simp only [Prod.mk.injEq] at hrecord
  obtain ⟨hblocks, hbegan, hdisk⟩ := hrecord
  refine ⟨config, hany, hpanicked, commit, hcommit, 46, by simp [hblocks], fun heq => ?_⟩
  rw [heq, Option.map_some, hdisk] at hbegan
  cases hbegan

/-! ### Reference counts -/

/-- The count of every buffer is the number of references that processes have to it, plus one if
the block it stands for is in the in-memory log and has not been unpinned; and a buffer that
`bget` would recycle is in nobody's hands. -/
def CountsExact (s : State) : Prop :=
  (∀ i, (s.bcache.buf i).refcnt.toNat = ∑ p, s.refs p i +
    if (s.bcache.buf i).InUse ∧ (s.bcache.buf i).blockno ∈ s.pending then 1 else 0) ∧
  ∀ i, s.bcache.victim = some i → ∀ p, s.refs p i = 0

/-- In every run that boots with a clear log, reference counts are exact in every state. -/
theorem refcnt_exact {sb : Superblock} (hsize : LOGSIZE ≤ sb.nlog) {disk : Disk}
    (hclear : LogHeader.diskN (disk sb.logstart) = 0) {config : Config Pid Op Res State Label}
    (h : (machine sb).Run (fun _ _ => True) (powerOn disk) config) :
    CountsExact config.state := by
  have hholds := holds_run False hsize (fun hf => hf.elim) hclear (meets_any h)
  obtain ⟨g, hinv, -⟩ := hholds.state
  have hcache := hinv.refs.cache
  have htotal : ∀ i, totalRefs (hands g) i = ∑ p, config.state.refs p i := by
    intro i
    exact Finset.sum_congr rfl fun p _ => (hinv.counted p i).symm
  constructor
  · intro i
    have hpin : pin config.state.bcache config.state.pending i =
        if (config.state.bcache.buf i).InUse ∧
          (config.state.bcache.buf i).blockno ∈ config.state.pending then 1 else 0 := by
      unfold pin
      -- a buffer in use whose block is pending is the valid one
      by_cases hmem : (config.state.bcache.buf i).blockno ∈ config.state.pending
      · by_cases huse : (config.state.bcache.buf i).InUse
        · simp [huse, hmem, hinv.refs.valid_of_pending huse hmem]
        · have hinvalid : ¬(config.state.bcache.buf i).valid = true := fun hv => huse (.inl hv)
          simp [huse, hinvalid]
      · simp [hmem]
    have hexact := hcache.exact i
    simp only [htotal, hpin] at hexact
    exact hexact
  · intro i hvictim p
    have hzero : totalRefs (hands g) i + _ = 0 := hcache.count_victim hvictim
    have hle := refs_le_totalRefs (hands g) p i
    rw [hinv.counted p i]
    show (hands g p).refs i = 0
    omega

theorem refcnt_exact_oneCommit :
    ∃ config, (machine mkfsSuperblock).Run (fun _ _ => True) (powerOn blankDisk) config ∧
      config.state.booted = true ∧ CountsExact config.state := by
  have hplay : ((machine mkfsSuperblock).play (fun _ _ => true) oneCommit
      (powerOn blankDisk)).map (fun c => c.state.booted) = some true := by
    decide +kernel
  obtain ⟨config, hany, hbooted⟩ := exists_any_run hplay
  exact ⟨config, hany, hbooted, refcnt_exact le_rfl blankDisk_clear hany⟩

/-- The first process boots from that disk, and then reads block 46. -/
def recoveredRead : List (Event Pid Call Unit) := callSteps 0 .start 34 ++ callSteps 0 (.bread 46) 3

/-- Recovery calls `bunpin` on a buffer that was never pinned. After `initlog` nobody refers to
that buffer and the log is empty, but its count has wrapped to `2 ^ 32 - 1`. The next process
that reads the block holds the buffer with count 0, and it is the one that `bget` recycles
next. -/
theorem refcnt_wraps_after_recovery : LogHeader.decode (committedDisk 2) = some ⟨[46], by decide⟩ ∧
    (∃ config, (machine mkfsSuperblock).Run (fun _ _ => True) (powerOn committedDisk) config ∧
      (config.state.booted, config.panicked, config.state.pending,
        (config.state.bcache.buf 2).refcnt.toNat, ∑ p, config.state.refs p 2) =
      (true, none, [], 2 ^ 32 - 1, 0)) ∧
    ∃ config, (machine mkfsSuperblock).Run (fun _ _ => True) (powerOn committedDisk) config ∧
      (config.panicked, config.state.bcache.victim, config.state.refs 0 2) = (none, some 2, 1) := by
  refine ⟨by decide +kernel, ?_, ?_⟩
  · have hplay : ((machine mkfsSuperblock).play (fun _ _ => true) (callSteps 0 .start 34)
        (powerOn committedDisk)).map (fun c => (c.state.booted, c.panicked, c.state.pending,
          (c.state.bcache.buf 2).refcnt.toNat, ∑ p, c.state.refs p 2)) =
        some (true, none, [], 2 ^ 32 - 1, 0) := by
      decide +kernel
    exact exists_any_run hplay
  · have hplay : ((machine mkfsSuperblock).play (fun _ _ => true) recoveredRead
        (powerOn committedDisk)).map (fun c => (c.panicked, c.state.bcache.victim,
          c.state.refs 0 2)) = some (none, some 2, 1) := by
      decide +kernel
    exact exists_any_run hplay

/-! ### Logged blocks -/

/-- A disk with a log that is clear and large enough. -/
structure CleanDisk where
  sb : Superblock
  disk : Disk
  room : LOGSIZE ≤ sb.nlog
  clear : LogHeader.diskN (disk sb.logstart) = 0

/-- A block that has been logged stays in a valid buffer that `bget` does not recycle until it is
installed; and these are all blocks in the log unless a commit is in progress. -/
theorem logged_blocks_cached (d : CleanDisk) (c : (machine d.sb).Reachable (powerOn d.disk)) :
    (∀ b ∈ c.1.state.pending, ∃ i, (c.1.state.bcache.buf i).blockno = b ∧
      (c.1.state.bcache.buf i).valid = true ∧ (c.1.state.bcache.buf i).refcnt ≠ 0 ∧
      c.1.state.bcache.victim ≠ some i) ∧
    (c.1.state.committing = false → c.1.state.pending = c.1.state.lh.block) := by
  obtain ⟨g, hinv, -⟩ := (holds_run False d.room nofun d.clear (meets_any c.2)).state
  refine ⟨fun b hb => ?_, fun hidle => ?_⟩
  · obtain ⟨i, hblock, hvalid⟩ := hinv.refs.pinned b hb
    have hcache := hinv.refs.cache
    have hpin : pin c.1.state.bcache c.1.state.pending i = 1 := if_pos ⟨hvalid, hblock ▸ hb⟩
    refine ⟨i, hblock, hvalid, fun hzero => ?_, fun hvictim => ?_⟩
    · have := (hcache.refcnt_eq_zero_iff i).mp hzero
      omega
    · have := hcache.count_victim hvictim
      omega
  · rw [State.pending, (hinv.log.idle hidle).1, List.drop_zero]

/-- A new file system. -/
def blankFs : CleanDisk := ⟨mkfsSuperblock, blankDisk, le_refl _, blankDisk_clear⟩

theorem logged_blocks_cached_oneCommit :
    ∃ c : (machine blankFs.sb).Reachable (powerOn blankFs.disk), c.1.state.pending = [46] ∧
      ∃ i, (c.1.state.bcache.buf i).blockno = 46 ∧ (c.1.state.bcache.buf i).refcnt ≠ 0 := by
  -- up to the call of `end_op`
  have hplay : ((machine mkfsSuperblock).play (fun _ _ => true) (oneCommit.take 35)
      (powerOn blankDisk)).map (fun c => c.state.pending) = some [46] := by
    decide +kernel
  obtain ⟨config, hany, hpending⟩ := exists_any_run hplay
  have hmem : 46 ∈ config.state.pending := by simp [hpending]
  obtain ⟨i, hblock, -, hcount, -⟩ := (logged_blocks_cached blankFs ⟨config, hany⟩).1 46 hmem
  exact ⟨⟨config, hany⟩, hpending, i, hblock, hcount⟩

/-! ### Space in the log -/

/-- No process logs more than `MAXOPBLOCKS` distinct blocks in one operation, and `begin_op`
admits an operation only if two blocks of the log remain beyond all reservations. -/
def reserves (sb : Superblock) (p : Pid) (o : Op) (s : State) : Bool :=
  withinLimit p o s && leavesRoom sb o s

/-- In every run whose steps meet that condition, `log_write` never finds the log full, and the
log never has more entries than blocks. -/
theorem reservation_sound {sb : Superblock} (hsize : sb.nlog = LOGSIZE) {disk : Disk}
    (hclear : LogHeader.diskN (disk sb.logstart) = 0) {config : Config Pid Op Res State Label}
    (h : (machine sb).Run (fun c e => Machine.atStep (reserves sb) c e = true)
      (powerOn disk) config) :
    config.panicked ≠ some "too big a transaction" ∧
      config.state.lh.block.length ≤ sb.nlog - 1 := by
  have hmeets : (machine sb).Run (discipline sb True).Meets (powerOn disk) config := by
    refine h.mono fun c e he => meets_of_atStep ?_ he
    intro p o s hcond _
    exact Bool.and_eq_true_iff.mp hcond
  have hholds := holds_run True (le_of_eq hsize.symm) (fun _ => le_of_eq hsize) hclear hmeets
  obtain ⟨g, hinv, -⟩ := hholds.state
  constructor
  · intro hpanic
    rcases hholds.panicked _ hpanic with hm | ⟨hf, -⟩
    · simp at hm
    · exact hf trivial
  · have := (hinv.reserved trivial).room
    omega

theorem reservation_sound_oneCommit : ∃ config, (machine mkfsSuperblock).Run
        (fun c e => Machine.atStep (reserves mkfsSuperblock) c e = true)
          (powerOn blankDisk) config ∧
      config.state.commits.length = 1 ∧ config.panicked ≠ some "too big a transaction" ∧
        config.state.lh.block.length ≤ mkfsSuperblock.nlog - 1 := by
  have hplay : ((machine mkfsSuperblock).play (Machine.atStep (reserves mkfsSuperblock))
      oneCommit (powerOn blankDisk)).map (fun c => c.state.commits.length) = some 1 := by
    decide +kernel
  obtain ⟨config, hrun, hcommits⟩ := exists_run_of_play hplay
  exact ⟨config, hrun, hcommits, reservation_sound rfl blankDisk_clear hrun⟩

/-- Three operations begin, and in turns read and log `n` blocks, each one its own. -/
def threeOps (n : Nat) : List (Event Pid Call Unit) :=
  callSteps 0 .start 19 ++ callSteps 1 .start 1 ++ callSteps 2 .start 1 ++
    callSteps 0 .beginOp 1 ++ callSteps 1 .beginOp 1 ++ callSteps 2 .beginOp 1 ++
    (List.range n).flatMap fun k =>
      callSteps (k % 3) (.bread (100 + k)) 3 ++
        callSteps (k % 3) (.logWrite (bufAt (k + 1), 100 + k)) 3 ++
        callSteps (k % 3) (.brelse (bufAt (k + 1), 100 + k)) 2

/-- The last of thirty blocks finds the log full. -/
def fullLog : List (Event Pid Call Unit) :=
  threeOps 29 ++ callSteps 2 (.bread 129) 3 ++ callSteps 2 (.logWrite (bufAt 30, 129)) 1

/-- Two processes pass the check of the size, which holds no lock, before either appends. -/
def racingChecks : List (Event Pid Call Unit) :=
  threeOps 28 ++ callSteps 1 (.bread 128) 3 ++ callSteps 2 (.bread 129) 3 ++
    callSteps 1 (.logWrite (bufAt 29, 128)) 1 ++ callSteps 2 (.logWrite (bufAt 30, 129)) 3 ++
    [.step 1 (), .step 1 ()]

/-- Three operations, admitted together, that log ten distinct blocks each, within their limit:
the thirtieth `log_write` panics, since the log has 29 data blocks; or, if two processes race
through the check, the log gets 30 entries. -/
theorem reservation_overflows :
    (∃ config, (machine mkfsSuperblock).Run (fun c e => Machine.atStep withinLimit c e = true)
        (powerOn blankDisk) config ∧ config.panicked = some "too big a transaction") ∧
      ∃ config, (machine mkfsSuperblock).Run (fun c e => Machine.atStep withinLimit c e = true)
        (powerOn blankDisk) config ∧ config.state.lh.block.length = 30 ∧
          mkfsSuperblock.nlog - 1 = 29 := by
  constructor
  · have hplay : ((machine mkfsSuperblock).play (Machine.atStep withinLimit) fullLog
        (powerOn blankDisk)).map (fun c => c.panicked) = some (some "too big a transaction") := by
      decide +kernel
    exact exists_run_of_play hplay
  · have hplay : ((machine mkfsSuperblock).play (Machine.atStep withinLimit) racingChecks
        (powerOn blankDisk)).map (fun c => c.state.lh.block.length) = some 30 := by
      decide +kernel
    obtain ⟨config, hrun, hlength⟩ := exists_run_of_play hplay
    exact ⟨config, hrun, hlength, rfl⟩

end Xv6.Log
