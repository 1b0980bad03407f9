import Xv6.Log.Code
import Mathlib.Data.List.Basic

/-!
# Crash atomicity of the redo log

The code of `log.c` run alone against a disk that may stop between any two block writes.
A `Dev` records the disk, the cached blocks, and every write in the order of issue, so a
crash after `k` writes leaves the disk `replay (writes.take k)`. The proof gives each disk
one of three phases: `Old` while the header on disk is clear, `Committed` once `write_head`
has named the transaction, `Done` once it is cleared again. `commit_crash_atomic` says
that a crash anywhere in `commit`, followed by any number of recoveries that crash
themselves and one that completes, leaves all home blocks old or all of them new, and
which of the two depends only on whether the first `write_head` reached the disk.
-/

namespace Xv6.Log

open Function List

/-- The blocks of a disk. -/
abbrev Disk := Nat → Block

/-- A device as one kernel thread sees it, with the block writes issued so far, oldest first. -/
structure Dev where
  disk : Disk
  cache : Nat → Option Block
  lh : LogHeader
  writes : List (Nat × Block)

namespace Dev

/-- What `bread` returns for a block: its cached copy, or else what the disk holds. -/
def contents (dev : Dev) (blockno : Nat) : Block := (dev.cache blockno).getD (dev.disk blockno)

/-- Put a block in the cache with the given contents. -/
def put (dev : Dev) (blockno : Nat) (block : Block) : Dev :=
  { dev with cache := update dev.cache blockno (some block) }

/-- The device after `bread`. -/
def read (dev : Dev) (blockno : Nat) : Dev := dev.put blockno (dev.contents blockno)

/-- Write a cached block to the disk. -/
def flush (dev : Dev) (blockno : Nat) : Dev :=
  { dev with
    disk := update dev.disk blockno (dev.contents blockno)
    writes := dev.writes ++ [(blockno, dev.contents blockno)] }

/-- The device after a reboot: nothing is cached. -/
def boot (disk : Disk) : Dev := ⟨disk, fun _ => none, .empty, []⟩

section

variable (dev : Dev) (blockno : Nat)
include dev blockno

@[simp] theorem contents_put (block : Block) :
    (dev.put blockno block).contents = update dev.contents blockno block := by
  funext other
  by_cases h : other = blockno
  · subst h
    simp [contents, put]
  · simp [contents, put, h]

@[simp] theorem contents_read : (dev.read blockno).contents = dev.contents := by
  simp [read]

@[simp] theorem contents_flush : (dev.flush blockno).contents = dev.contents := by
  funext other
  by_cases h : other = blockno
  · subst h
    cases hc : dev.cache other <;> simp [contents, flush, hc]
  · simp [contents, flush, h]

@[simp] theorem disk_put (block : Block) : (dev.put blockno block).disk = dev.disk := rfl

@[simp] theorem lh_put (block : Block) : (dev.put blockno block).lh = dev.lh := rfl

@[simp] theorem writes_put (block : Block) : (dev.put blockno block).writes = dev.writes := rfl

@[simp] theorem disk_flush :
    (dev.flush blockno).disk = update dev.disk blockno (dev.contents blockno) := rfl

@[simp] theorem lh_flush : (dev.flush blockno).lh = dev.lh := rfl

@[simp] theorem writes_flush :
    (dev.flush blockno).writes = dev.writes ++ [(blockno, dev.contents blockno)] := rfl

end

@[simp] theorem contents_boot (disk : Disk) : (boot disk).contents = disk := rfl

end Dev

/-- Code run alone on a device. It has no result when it indexes `lh.block` out of bounds. -/
def Solo (α : Type) : Type := Dev → Option (α × Dev)

namespace Solo

instance : Monad Solo where
  pure value := fun dev => some (value, dev)
  bind prog rest := fun dev => (prog dev).bind fun (value, dev') => rest value dev'

/-- A buffer is named by its block number, since the cache holds at most one copy of a block. -/
instance : LogBuffers Solo Nat where
  bread blockno := fun dev => some (blockno, dev.put blockno (dev.contents blockno))
  data blockno := fun dev => some (dev.contents blockno, dev)
  setData blockno block := fun dev => some ((), dev.put blockno block)
  bwrite blockno := fun dev => some ((), dev.flush blockno)
  brelse _ := pure ()
  bunpin _ := pure ()
  lh := fun dev => some (dev.lh, dev)
  setLh header := fun dev => some ((), { dev with lh := header })
  overrun := fun _ => none

/-- The block writes a program issues, in order. -/
def trace (prog : Solo Unit) (dev : Dev) : Option (List (Nat × Block)) :=
  (prog { dev with writes := [] }).map fun result => result.2.writes

theorem bind_of_some {α β : Type} {prog : Solo α} {rest : α → Solo β} {dev dev' : Dev} {value : α}
    (h : prog dev = some (value, dev')) : (prog >>= rest) dev = rest value dev' := by
  show (prog dev).bind _ = _
  rw [h]
  rfl

theorem lh_bind {α : Type} (rest : LogHeader → Solo α) (dev : Dev) :
    (LogBuffers.lh >>= rest) dev = rest dev.lh dev :=
  rfl

end Solo

/-- Apply block writes to a disk in order. -/
def replay (writes : List (Nat × Block)) (disk : Disk) : Disk :=
  writes.foldl (fun d write => update d write.1 write.2) disk

@[simp] theorem replay_nil (disk : Disk) : replay [] disk = disk := rfl

@[simp] theorem replay_cons (blockno : Nat) (block : Block) (writes : List (Nat × Block))
    (disk : Disk) :
    replay ((blockno, block) :: writes) disk = replay writes (update disk blockno block) := rfl

@[simp] theorem replay_append (first second : List (Nat × Block)) (disk : Disk) :
    replay (first ++ second) disk = replay second (replay first disk) :=
  foldl_append

variable {writes : List (Nat × Block)} {disk : Disk}

theorem replay_other {blockno : Nat}
    (h : ∀ write ∈ writes, write.1 ≠ blockno) : replay writes disk blockno = disk blockno := by
  induction writes generalizing disk with
  | nil => rfl
  | cons write writes ih =>
    obtain ⟨target, block⟩ := write
    have hne : target ≠ blockno := h (target, block) mem_cons_self
    rw [replay_cons, ih fun w hw => h w (mem_cons_of_mem _ hw)]
    exact update_of_ne hne.symm _ _

variable {block : Block}

/-- If all writes to a block write the same contents, then the block holds them afterwards,
provided there was such a write or it held them before. -/
theorem replay_same {blockno : Nat} (hall : ∀ write ∈ writes, write.1 = blockno → write.2 = block)
    (h : (∃ write ∈ writes, write.1 = blockno) ∨ disk blockno = block) :
    replay writes disk blockno = block := by
  induction writes generalizing disk with
  | nil => simpa using h
  | cons write writes ih =>
    obtain ⟨target, value⟩ := write
    rw [replay_cons]
    apply ih fun w hw => hall w (mem_cons_of_mem _ hw)
    by_cases htarget : target = blockno
    · right
      subst htarget
      simpa using hall (target, value) mem_cons_self rfl
    · rcases h with ⟨w, hw, hwb⟩ | h
      · rcases mem_cons.mp hw with rfl | hw
        · exact absurd hwb htarget
        · exact .inl ⟨w, hw, hwb⟩
      · right
        rw [update_of_ne (fun heq => htarget heq.symm), h]

/-- Home blocks lie outside the `size` blocks of the log that start at `start`. -/
def OutsideLog (start size blockno : Nat) : Prop := blockno < start ∨ start + size ≤ blockno

instance (start size blockno : Nat) : Decidable (OutsideLog start size blockno) :=
  inferInstanceAs (Decidable (_ ∨ _))

variable {start : Nat} {homes : List Nat} {view view' : Disk}

/-- The writes of a loop that copies a block for each home block from index `tail` on. -/
def copyWrites (dst src : Nat → Nat → Nat) (view : Disk) : Nat → List Nat → List (Nat × Block)
  | _, [] => []
  | tail, home :: homes =>
    (dst tail home, view (src tail home)) :: copyWrites dst src view (tail + 1) homes

/-- The writes of `write_log` from index `tail` on. -/
def logWrites (start : Nat) : Disk → Nat → List Nat → List (Nat × Block) :=
  copyWrites (fun tail _ => start + tail + 1) fun _ home => home

/-- The writes of `install_trans` from index `tail` on. -/
def installWrites (start : Nat) : Disk → Nat → List Nat → List (Nat × Block) :=
  copyWrites (fun _ home => home) fun tail _ => start + tail + 1

variable {write : Nat × Block} {tail : Nat} {dst src : Nat → Nat → Nat}

theorem copyWrites_congr (h : ∀ j, (hj : j < homes.length) →
      view (src (tail + j) homes[j]) = view' (src (tail + j) homes[j])) :
    copyWrites dst src view tail homes = copyWrites dst src view' tail homes := by
  induction homes generalizing tail with
  | nil => rfl
  | cons home homes ih =>
    have hhead : view (src tail home) = view' (src tail home) := h 0 (by simp)
    rw [copyWrites, copyWrites, hhead, ih]
    intro j hj
    have := h (j + 1) (by simpa using hj)
    rwa [show tail + (j + 1) = tail + 1 + j by omega] at this

theorem mem_copyWrites (h : write ∈ copyWrites dst src view tail homes) :
    ∃ j, ∃ hj : j < homes.length,
      write = (dst (tail + j) homes[j], view (src (tail + j) homes[j])) := by
  induction homes generalizing tail with
  | nil => simp [copyWrites] at h
  | cons home homes ih =>
    rcases mem_cons.mp h with rfl | h
    · exact ⟨0, by simp, rfl⟩
    · obtain ⟨j, hj, rfl⟩ := ih h
      exact ⟨j + 1, by simpa using hj, by
        simp [show tail + 1 + j = tail + (j + 1) by omega]⟩

theorem mem_logWrites (h : write ∈ logWrites start view tail homes) :
    start + tail < write.1 ∧ write.1 ≤ start + tail + homes.length := by
  obtain ⟨j, hj, rfl⟩ := mem_copyWrites h
  constructor <;> dsimp only <;> omega

theorem mem_installWrites (h : write ∈ installWrites start view tail homes) :
    ∃ j, ∃ hj : j < homes.length, write = (homes[j], view (start + (tail + j) + 1)) :=
  mem_copyWrites h

theorem exists_installWrites (tail : Nat) {home : Nat} (h : home ∈ homes) :
    ∃ write ∈ installWrites start view tail homes, write.1 = home := by
  induction homes generalizing tail with
  | nil => simp at h
  | cons first homes ih =>
    rcases mem_cons.mp h with rfl | h
    · exact ⟨_, mem_cons_self, rfl⟩
    · obtain ⟨write, hmem, hhome⟩ := ih (tail + 1) h
      exact ⟨write, mem_cons_of_mem _ hmem, hhome⟩

/-- After `write_log`, the log block at each index holds the contents of its home block. -/
theorem replay_logWrites (start : Nat) (view disk : Disk) (tail : Nat) (homes : List Nat)
    {j : Nat} (hj : j < homes.length) :
    replay (logWrites start view tail homes) disk (start + (tail + j) + 1) = view homes[j] := by
  induction homes generalizing tail disk j with
  | nil => simp at hj
  | cons home homes ih =>
    show replay (logWrites start view (tail + 1) homes) (update disk (start + tail + 1) (view home))
      _ = _
    cases j with
    | zero =>
      have hlater : ∀ write ∈ logWrites start view (tail + 1) homes,
          write.1 ≠ start + (tail + 0) + 1 := by
        intro write hwrite
        have := mem_logWrites hwrite
        omega
      rw [replay_other hlater]
      simp
    | succ j =>
      have := ih (update disk (start + tail + 1) (view home)) (tail + 1) (by simpa using hj)
      rw [show tail + (j + 1) = tail + 1 + j by omega, this]
      rfl

/-- `dev'` is `dev` after exactly the given writes: they show in the disk, in what the cache
returns, and in the record of writes. -/
structure Issues (writes : List (Nat × Block)) (dev dev' : Dev) : Prop where
  contents : dev'.contents = replay writes dev.contents
  disk : dev'.disk = replay writes dev.disk
  lh : dev'.lh = dev.lh
  writes : dev'.writes = dev.writes ++ writes

theorem Issues.refl (dev : Dev) : Issues [] dev dev := ⟨rfl, rfl, rfl, by simp⟩

theorem Issues.trans {first second : List (Nat × Block)} {dev dev' dev'' : Dev}
    (h : Issues first dev dev') (h' : Issues second dev' dev'') :
    Issues (first ++ second) dev dev'' where
  contents := by rw [h'.contents, h.contents, replay_append]
  disk := by rw [h'.disk, h.disk, replay_append]
  lh := h'.lh.trans h.lh
  writes := by rw [h'.writes, h.writes, append_assoc]

/-- Reading a block, replacing its contents and writing it issues one write. -/
theorem issues_flush (dev : Dev) (blockno : Nat) (block : Block) {dev' : Dev}
    (hcontents : dev'.contents = dev.contents) (hdisk : dev'.disk = dev.disk)
    (hlh : dev'.lh = dev.lh) (hwrites : dev'.writes = dev.writes) :
    Issues [(blockno, block)] dev ((dev'.put blockno block).flush blockno) where
  contents := by simp [hcontents]
  disk := by simp [hdisk]
  lh := by simpa using hlh
  writes := by simp [hwrites]

variable {tail home : Nat}

theorem getElem?_of_drop_eq_cons {blocks homes : List Nat} (h : blocks.drop tail = home :: homes) :
    blocks[tail]? = some home ∧ blocks.drop (tail + 1) = homes := by
  constructor
  · rw [← head?_drop, h, head?_cons]
  · rw [← tail_drop, h, tail_cons]

/-- `write_head` issues one write, of the encoded in-memory header. -/
theorem writeHead_issues (start : Nat) (dev : Dev) :
    ∃ dev', (writeHead start : Solo Unit) dev = some ((), dev') ∧
      Issues [(start, dev.lh.encode (dev.contents start))] dev dev' := by
  have hread : (dev.read start).contents = dev.contents := by simp
  refine ⟨((dev.read start).put start (dev.lh.encode
    ((dev.read start).contents start))).flush start,
    rfl, ?_⟩
  rw [hread]
  exact issues_flush dev start _ hread rfl rfl rfl

variable {dev : Dev}

theorem readHead_run {header : LogHeader}
    (h : LogHeader.decode (dev.contents start) = some header) :
    (readHead start : Solo Unit) dev = some ((), { dev.read start with lh := header }) := by
  have hread : (LogBuffers.bread start : Solo Nat) dev = some (start, dev.read start) := rfl
  have hdata : (LogBuffers.data start : Solo Block) (dev.read start) =
      some ((dev.read start).contents start, dev.read start) := rfl
  rw [readHead, Solo.bind_of_some hread, Solo.bind_of_some hdata, Dev.contents_read, h]
  rfl

/-- A loop of `log.c` that copies a block in each round, as long as there is an entry at `tail`. -/
structure CopyLoop (dst src : Nat → Nat → Nat) (loop : Nat → Nat → Solo Unit) : Prop where
  stop : ∀ fuel tail dev, dev.lh.block[tail]? = none → loop (fuel + 1) tail dev = some ((), dev)
  round : ∀ fuel tail home dev, dev.lh.block[tail]? = some home →
    ∃ dev', Issues [(dst tail home, dev.contents (src tail home))] dev dev' ∧
      loop (fuel + 1) tail dev = loop fuel (tail + 1) dev'

theorem issues_copy (dev : Dev) (first second target source : Nat) :
    Issues [(target, dev.contents source)] dev ((((dev.read first).read second).put target
      (((dev.read first).read second).contents source)).flush target) := by
  have hboth : ((dev.read first).read second).contents = dev.contents := by simp
  rw [hboth]
  exact issues_flush dev _ _ hboth rfl rfl rfl

theorem copyLoop_writeLog (start : Nat) :
    CopyLoop (fun tail _ => start + tail + 1) (fun _ home => home) (writeLogFrom start) where
  stop fuel tail dev hnone := by
    rw [writeLogFrom, Solo.lh_bind, hnone]
    rfl
  round fuel tail home dev hhome := by
    refine ⟨_, issues_copy dev (start + tail + 1) home _ _, ?_⟩
    rw [writeLogFrom, Solo.lh_bind, hhome]
    rfl

theorem copyLoop_installTrans (start : Nat) :
    CopyLoop (fun _ home => home) (fun tail _ => start + tail + 1) (installTransFrom start) where
  stop fuel tail dev hnone := by
    rw [installTransFrom, Solo.lh_bind, hnone]
    rfl
  round fuel tail home dev hhome := by
    refine ⟨_, issues_copy dev (start + tail + 1) home _ _, ?_⟩
    rw [installTransFrom, Solo.lh_bind, hhome]
    rfl

/-- Such a loop issues the writes of the entries that remain, if it reads no block that it has
written. -/
theorem CopyLoop.issues {loop : Nat → Nat → Solo Unit} (h : CopyLoop dst src loop) (fuel : Nat)
    (homes : List Nat) (hdrop : dev.lh.block.drop tail = homes) (hfuel : homes.length < fuel)
    (hapart : ∀ i, ∀ home ∈ homes, ∀ j, ∀ home' ∈ homes, i < tail + homes.length →
      j < tail + homes.length → src i home ≠ dst j home') :
    ∃ dev', loop fuel tail dev = some ((), dev') ∧
      Issues (copyWrites dst src dev.contents tail homes) dev dev' := by
  obtain ⟨fuel, rfl⟩ : ∃ rounds, fuel = rounds + 1 := ⟨fuel - 1, by omega⟩
  induction homes generalizing fuel tail dev with
  | nil =>
    have hnone : dev.lh.block[tail]? = none := by
      simpa [drop_eq_nil_iff] using hdrop
    exact ⟨dev, h.stop _ _ _ hnone, Issues.refl dev⟩
  | cons home homes ih =>
    obtain ⟨hhome, hrest⟩ := getElem?_of_drop_eq_cons hdrop
    obtain ⟨mid, hmid, hround⟩ := h.round fuel tail home dev hhome
    simp only [length_cons] at hfuel hapart
    obtain ⟨fuel, rfl⟩ : ∃ rounds, fuel = rounds + 1 := ⟨fuel - 1, by omega⟩
    have hdrop' : mid.lh.block.drop (tail + 1) = homes := by rw [hmid.lh, hrest]
    obtain ⟨dev', hrun, hissues⟩ := ih hdrop' (fun i b hb j b' hb' hi hj =>
      hapart i b (mem_cons_of_mem _ hb) j b' (mem_cons_of_mem _ hb') (by omega)
        (by omega)) fuel (by omega)
    refine ⟨dev', by rw [hround, hrun], ?_⟩
    -- the write of this round leaves the blocks that the other rounds read
    have hview : copyWrites dst src mid.contents (tail + 1) homes =
        copyWrites dst src dev.contents (tail + 1) homes := by
      apply copyWrites_congr
      intro j hj
      have hne := hapart (tail + 1 + j) homes[j] (mem_cons_of_mem _ (getElem_mem hj))
        tail home mem_cons_self (by omega) (by omega)
      rw [hmid.contents, replay_other]
      simpa only [mem_singleton, forall_eq] using hne.symm
    rw [hview] at hissues
    exact hmid.trans hissues

/-- No transaction is on disk, and the blocks outside the log are those of `view`. -/
structure Quiet (start size : Nat) (view disk : Disk) : Prop where
  clear : LogHeader.diskN (disk start) = 0
  home : ∀ blockno, OutsideLog start size blockno → disk blockno = view blockno

/-- The transaction `lh` is on disk: the header names it, the log holds its blocks, and every
other block outside the log is that of `view`, the state once it is installed. -/
structure Committed (start size : Nat) (lh : LogHeader) (view disk : Disk) : Prop where
  header : LogHeader.decode (disk start) = some lh
  logged : ∀ j, (h : j < lh.block.length) → disk (start + j + 1) = view lh.block[j]
  home : ∀ blockno, OutsideLog start size blockno → blockno ∉ lh.block → disk blockno = view blockno

/-- The blocks that the transaction `lh` fits into the log, and homes where `header` keeps them. -/
structure Loggable (start size : Nat) (lh : LogHeader) : Prop where
  room : lh.block.length < size
  outside : ∀ home ∈ lh.block, OutsideLog start size home

variable {start size : Nat}

theorem loggable_empty (h : 0 < size) : Loggable start size .empty := ⟨h, by simp⟩

variable {lh : LogHeader}

/-- The blocks of the log that a transaction uses are not home blocks. -/
theorem Loggable.not_mem {i : Nat} (h : Loggable start size lh)
    (hi : i ≤ lh.block.length) : start + i ∉ lh.block := by
  intro hin
  have hout := h.outside _ hin
  have hroom := h.room
  unfold OutsideLog at hout
  omega

theorem outsideLog_ne_start {start size blockno : Nat} (hsize : 0 < size)
    (h : OutsideLog start size blockno) : blockno ≠ start := by
  unfold OutsideLog at h
  omega

section Phases

variable (hlh : Loggable start size lh)

section

variable (h : Quiet start size view disk)
include h

/-- A clear log decodes to no transaction, which `install_trans` leaves alone. -/
theorem Quiet.decode : LogHeader.decode (disk start) = some .empty :=
  LogHeader.decode_of_diskN_eq_zero h.clear

theorem Quiet.clear_again (hsize : 0 < size) (hblock : LogHeader.diskN block = 0) :
    Quiet start size view (replay [(start, block)] disk) where
  clear := by simpa using hblock
  home blockno hout := by
    have hne := outsideLog_ne_start hsize hout
    simp [hne, h.home blockno hout]

include hlh

/-- A write of `write_log` keeps a quiet disk quiet: it lands in the log behind the header. -/
theorem Quiet.log {new : Disk} (hpre : writes <+: logWrites start new 0 lh.block) :
    Quiet start size view (replay writes disk) := by
  have hroom := hlh.room
  have hrange : ∀ write ∈ writes, start < write.1 ∧ write.1 < start + size := by
    intro write hwrite
    have := mem_logWrites (hpre.subset hwrite)
    omega
  constructor
  · rw [replay_other]
    · exact h.clear
    · intro write hwrite
      have := hrange write hwrite
      omega
  · intro blockno hout
    rw [replay_other]
    · exact h.home blockno hout
    · intro write hwrite
      have := hrange write hwrite
      unfold OutsideLog at hout
      omega

/-- Once the log holds the cached blocks, the first `write_head` commits them. -/
theorem Quiet.commit (new : Disk) (hword : ∀ home ∈ lh.block, home < 2 ^ 32) (block : Block) :
    Committed start size lh (fun b => if b ∈ lh.block then new b else view b)
      (replay (logWrites start new 0 lh.block ++ [(start, lh.encode block)]) disk) := by
  rw [replay_append]
  constructor
  · simpa using LogHeader.decode_encode lh block hword
  · intro j hj
    have hlog := replay_logWrites start new disk 0 lh.block hj
    rw [zero_add] at hlog
    rw [replay_cons, replay_nil, update_of_ne (by omega), hlog, if_pos (getElem_mem hj)]
  · intro blockno hout hnot
    have hne := outsideLog_ne_start (Nat.zero_lt_of_lt hlh.room) hout
    rw [replay_cons, replay_nil, update_of_ne hne, if_neg hnot]
    exact (h.log hlh prefix_rfl).home blockno hout

end

variable (h : Committed start size lh view disk)
include h

/-- Every write of `install_trans` writes the contents that its block has in `view`. -/
theorem Committed.mem_installWrites (hwrite : write ∈ installWrites start disk 0 lh.block) :
    write.1 ∈ lh.block ∧ write.2 = view write.1 := by
  obtain ⟨j, hj, rfl⟩ := Log.mem_installWrites hwrite
  refine ⟨getElem_mem hj, ?_⟩
  rw [zero_add]
  exact h.logged j hj

include hlh

/-- Installing some of the blocks leaves the transaction on disk. -/
theorem Committed.install (hpre : writes <+: installWrites start disk 0 lh.block) :
    Committed start size lh view (replay writes disk) := by
  have hmem : ∀ write ∈ writes, write.1 ∈ lh.block := fun write hwrite =>
    (h.mem_installWrites (hpre.subset hwrite)).1
  have hkeep : ∀ blockno, blockno ∉ lh.block → replay writes disk blockno = disk blockno := by
    intro blockno hnot
    apply replay_other
    rintro write hwrite rfl
    exact hnot (hmem write hwrite)
  constructor
  · rw [hkeep start (hlh.not_mem (Nat.zero_le _)), h.header]
  · intro j hj
    rw [hkeep (start + j + 1) (hlh.not_mem hj), h.logged j hj]
  · intro blockno hout hnot
    rw [hkeep blockno hnot, h.home blockno hout hnot]

/-- Installing all of the blocks and then clearing the header completes the transaction. -/
theorem Committed.complete (hblock : LogHeader.diskN block = 0) : Quiet start size view
      (replay (installWrites start disk 0 lh.block ++ [(start, block)]) disk) := by
  have hsize : 0 < size := Nat.zero_lt_of_lt hlh.room
  rw [replay_append]
  constructor
  · simpa using hblock
  · intro blockno hout
    have hne := outsideLog_ne_start hsize hout
    rw [replay_cons, replay_nil, update_of_ne hne]
    by_cases hin : blockno ∈ lh.block
    · apply replay_same
      · rintro write hwrite rfl
        exact (h.mem_installWrites hwrite).2
      · exact .inl (exists_installWrites 0 hin)
    · exact (h.install hlh prefix_rfl).home blockno hout hin

end Phases

variable {dev : Dev}

theorem installTrans_issues (hlh : Loggable start size dev.lh) :
    ∃ dev', (installTrans start : Solo Unit) dev = some ((), dev') ∧
      Issues (installWrites start dev.contents 0 dev.lh.block) dev dev' := by
  refine (copyLoop_installTrans start).issues (LOGSIZE + 1) dev.lh.block rfl
    (Nat.lt_succ_of_le dev.lh.fits) ?_
  intro i _ _ _ home hhome hi _ (heq : start + i + 1 = home)
  exact hlh.not_mem (i := i + 1) (by omega) (heq ▸ hhome)

theorem writeLog_issues (hlh : Loggable start size dev.lh) :
    ∃ dev', (writeLog start : Solo Unit) dev = some ((), dev') ∧
      Issues (logWrites start dev.contents 0 dev.lh.block) dev dev' := by
  refine (copyLoop_writeLog start).issues (LOGSIZE + 1) dev.lh.block rfl
    (Nat.lt_succ_of_le dev.lh.fits) ?_
  intro _ home hhome i _ _ _ hi (heq : home = start + i + 1)
  exact hlh.not_mem (i := i + 1) (by omega) (heq ▸ hhome)

/-- `recover_from_log` and `commit` end so: install the transaction, then clear the header. -/
theorem install_clear_issues (dev : Dev) (hlh : Loggable start size dev.lh) :
    ∃ block dev', LogHeader.diskN block = 0 ∧
      (do installTrans start; LogBuffers.setLh .empty; writeHead start : Solo Unit) dev =
        some ((), dev') ∧
      dev'.writes =
        dev.writes ++ (installWrites start dev.contents 0 dev.lh.block ++ [(start, block)]) := by
  obtain ⟨installed, hinstall, hissues⟩ := installTrans_issues hlh
  obtain ⟨dev', hhead, hclear⟩ := writeHead_issues start { installed with lh := .empty }
  refine ⟨_, dev', LogHeader.diskN_encode .empty (installed.contents start), ?_, ?_⟩
  · rwa [Solo.bind_of_some hinstall]
  · rw [hclear.writes]
    rw [hissues.writes, append_assoc]
    rfl

/-- `recover_from_log` installs the transaction the header names, then clears the header. -/
theorem recoverFromLog_trace
    (hlh : Loggable start size lh) (hheader : LogHeader.decode (disk start) = some lh) :
    ∃ block, LogHeader.diskN block = 0 ∧ (recoverFromLog start : Solo Unit).trace (.boot disk) =
      some (installWrites start disk 0 lh.block ++ [(start, block)]) := by
  let read := (Dev.boot disk).read start
  have hcontents : read.contents = disk := by simp [read]
  have hread : (readHead start : Solo Unit) (.boot disk) = some ((), { read with lh := lh }) :=
    readHead_run hheader
  obtain ⟨block, dev', hblock, hrest, hwrites⟩ := install_clear_issues { read with lh := lh } hlh
  refine ⟨block, hblock, ?_⟩
  show Option.map _ ((recoverFromLog start : Solo Unit) (.boot disk)) = _
  rw [recoverFromLog, Solo.bind_of_some hread, hrest, Option.map_some, hwrites]
  show some ([] ++ (installWrites start read.contents 0 lh.block ++ _)) = _
  rw [hcontents, nil_append]

/-- The writes of `commit` up to the one that commits: the log, then the header. -/
def headWrites (start : Nat) (dev : Dev) : List (Nat × Block) :=
  logWrites start dev.contents 0 dev.lh.block ++ [(start, dev.lh.encode (dev.contents start))]

/-- After these writes the log holds the same blocks whatever it held before. -/
theorem installWrites_headWrites (start : Nat) (dev : Dev) (disk disk' : Disk) :
    installWrites start (replay (headWrites start dev) disk) 0 dev.lh.block =
      installWrites start (replay (headWrites start dev) disk') 0 dev.lh.block := by
  apply copyWrites_congr
  intro j hj
  have hne : start + (0 + j) + 1 ≠ start := by omega
  simp only [headWrites, replay_append, replay_cons, replay_nil, update_of_ne hne]
  rw [replay_logWrites _ _ _ 0 _ hj, replay_logWrites _ _ _ 0 _ hj]

/-- The writes of `commit`: the log, the header, the home blocks, the cleared header. -/
theorem commit_trace (hlh : Loggable start size dev.lh) (hsome : dev.lh.block ≠ []) :
    ∃ block, LogHeader.diskN block = 0 ∧ (commit start : Solo Unit).trace dev =
      some (headWrites start dev ++
        (installWrites start (replay (headWrites start dev) dev.disk) 0 dev.lh.block ++
          [(start, block)])) := by
  let dev₀ : Dev := { dev with writes := [] }
  have hlh₀ : Loggable start size dev₀.lh := hlh
  obtain ⟨dev₁, hlog, hissues₁⟩ := writeLog_issues hlh₀
  obtain ⟨dev₂, hhead, hissues₂⟩ := writeHead_issues start dev₁
  have hlh₂ : dev₂.lh = dev.lh := hissues₂.lh.trans hissues₁.lh
  have hissues : Issues (headWrites start dev) dev₀ dev₂ := by
    have hstart : dev₁.contents start = dev.contents start := by
      rw [hissues₁.contents, replay_other]
      · rfl
      · intro write hwrite
        have := mem_logWrites hwrite
        omega
    have := hissues₁.trans hissues₂
    rwa [hissues₁.lh, hstart] at this
  obtain ⟨block, dev₃, hblock, hrest, hwrites⟩ := install_clear_issues dev₂ (hlh₂ ▸ hlh)
  refine ⟨block, hblock, ?_⟩
  have hpos : 0 < dev₀.lh.block.length := length_pos_iff.mpr hsome
  have hrun : (commit start : Solo Unit) dev₀ = some ((), dev₃) := by
    show (if 0 < dev₀.lh.block.length then _ else _ : Solo Unit) dev₀ = _
    rw [if_pos hpos, Solo.bind_of_some hlog, Solo.bind_of_some hhead, hrest]
  show Option.map _ ((commit start : Solo Unit) dev₀) = _
  rw [hrun, Option.map_some, hwrites, hissues.writes, hissues.contents, hlh₂,
    installWrites_headWrites start dev dev₀.contents dev.disk, nil_append]

/-- Boot again and again: recoveries are cut off after the given numbers of writes, but for the
last. -/
def reboot (start : Nat) : List Nat → Disk → Option Disk
  | [], disk =>
    ((recoverFromLog start : Solo Unit).trace (.boot disk)).map fun writes => replay writes disk
  | cut :: cuts, disk =>
    ((recoverFromLog start : Solo Unit).trace (.boot disk)).bind fun writes =>
      reboot start cuts (replay (writes.take cut) disk)

/-- The phases a crash can leave behind, when the log is meant to hold `lh`. -/
def Recoverable (start size : Nat) (view disk : Disk) : Prop :=
  Quiet start size view disk ∨ ∃ lh, Loggable start size lh ∧ Committed start size lh view disk

/-- A recovery that is cut off leaves a recoverable disk, and one that completes a quiet one. -/
theorem Recoverable.recover (hsize : 0 < size) (h : Recoverable start size view disk) :
    ∃ writes, (recoverFromLog start : Solo Unit).trace (.boot disk) = some writes ∧
      Quiet start size view (replay writes disk) ∧
      ∀ cut, Recoverable start size view (replay (writes.take cut) disk) := by
  rcases h with hquiet | ⟨lh, hlh, hcommitted⟩
  · obtain ⟨block, hblock, htrace⟩ := recoverFromLog_trace (loggable_empty hsize) hquiet.decode
    have hdone := hquiet.clear_again hsize hblock
    refine ⟨_, htrace, hdone, fun cut => ?_⟩
    rcases prefix_concat_iff.mp (List.take_prefix cut ([] ++ [(start, block)])) with heq | hpre
    · exact .inl (by rw [LogHeader.block_empty, installWrites, copyWrites, heq]; exact hdone)
    · rw [LogHeader.block_empty, installWrites, copyWrites, prefix_nil.mp hpre]
      exact .inl hquiet
  · obtain ⟨block, hblock, htrace⟩ := recoverFromLog_trace hlh hcommitted.header
    have hdone := hcommitted.complete hlh hblock
    refine ⟨_, htrace, hdone, fun cut => ?_⟩
    rcases prefix_concat_iff.mp (List.take_prefix cut _) with heq | hpre
    · exact .inl (by rw [heq]; exact hdone)
    · exact .inr ⟨lh, hlh, hcommitted.install hlh hpre⟩

/-- However often recovery is cut off, the one that completes leaves the view on the disk. -/
theorem Recoverable.reboot (hsize : 0 < size)
    (h : Recoverable start size view disk) (cuts : List Nat) :
    ∃ final, Log.reboot start cuts disk = some final ∧ Quiet start size view final := by
  induction cuts generalizing disk with
  | nil =>
    obtain ⟨writes, htrace, hdone, -⟩ := h.recover hsize
    exact ⟨replay writes disk, by simp [Log.reboot, htrace], hdone⟩
  | cons cut cuts ih =>
    obtain ⟨writes, htrace, -, hcut⟩ := h.recover hsize
    obtain ⟨final, hfinal, hquiet⟩ := ih (hcut cut)
    exact ⟨final, by simp [Log.reboot, htrace, hfinal], hquiet⟩

/-- The disk with the home blocks of `lh` taken from `new`. -/
def installed (lh : LogHeader) (new disk : Disk) : Disk :=
  fun blockno => if blockno ∈ lh.block then new blockno else disk blockno

/-- `commit` leaves its transaction at home. What a crash inside it leaves: the old blocks until the
first `write_head`, which is the first write to block `start`, and the new ones from then on. -/
theorem Quiet.committed (h : Quiet start size view dev.disk) (hlh : Loggable start size dev.lh)
    (hword : ∀ home ∈ dev.lh.block, home < 2 ^ 32) :
    ∃ writes, (Log.commit start : Solo Unit).trace dev = some writes ∧
      Quiet start size (installed dev.lh dev.contents view) (replay writes dev.disk) ∧
      ∀ cut, Recoverable start size
        (if ∃ write ∈ writes.take cut, write.1 = start then installed dev.lh dev.contents view
          else view)
        (replay (writes.take cut) dev.disk) := by
  by_cases hsome : dev.lh.block = []
  · refine ⟨[], ?_, ⟨h.clear, fun blockno hout => ?_⟩, fun cut => .inl (by simpa using h)⟩
    · show Option.map _ ((if 0 < dev.lh.block.length then _ else _ : Solo Unit) _) = _
      rw [if_neg (by simp [hsome])]
      rfl
    · simp [installed, hsome, h.home blockno hout]
  · obtain ⟨block, hblock, htrace⟩ := commit_trace hlh hsome
    have hcommitted := h.commit hlh dev.contents hword (dev.contents start)
    refine ⟨_, htrace, ?_, fun cut => ?_⟩
    · rw [replay_append]
      exact hcommitted.complete hlh hblock
    rcases lt_or_ge (logWrites start dev.contents 0 dev.lh.block).length cut with hlate | hearly
    · -- the header is among the writes, so the crash left the transaction or its completion
      have hlen : (headWrites start dev).length ≤ cut := by
        rwa [headWrites, length_append]
      have hreached : ∃ write ∈ (headWrites start dev ++
          (installWrites start (replay (headWrites start dev) dev.disk) 0 dev.lh.block ++
            [(start, block)])).take cut, write.1 = start := by
        refine ⟨(start, dev.lh.encode (dev.contents start)), ?_, rfl⟩
        rw [take_append, take_of_length_le hlen]
        simp [headWrites]
      rw [if_pos hreached, take_append, take_of_length_le hlen, replay_append]
      rcases prefix_concat_iff.mp (List.take_prefix _ _) with heq | hpre
      · rw [heq]
        exact .inl (hcommitted.complete hlh hblock)
      · exact .inr ⟨dev.lh, hlh, hcommitted.install hlh hpre⟩
    · have hpre : (headWrites start dev ++
          (installWrites start (replay (headWrites start dev) dev.disk) 0 dev.lh.block ++
            [(start, block)])).take cut <+: logWrites start dev.contents 0 dev.lh.block := by
        rw [headWrites, append_assoc, take_append_of_le_length hearly]
        exact List.take_prefix _ _
      rw [if_neg]
      · exact .inl (h.log hlh hpre)
      · rintro ⟨write, hwrite, heq⟩
        have := mem_logWrites (hpre.subset hwrite)
        omega

/-- Crash atomicity. Let the header on disk be clear and let `commit` run on a transaction that
fits the log. Cut its writes off anywhere, then cut off any number of recoveries anywhere and
let one complete. Then all home blocks hold their new cached contents if the first write to
the header block was among the writes of `commit`, and all hold their old contents if not;
no other block outside the log has changed, and the header is clear again. -/
theorem commit_crash_atomic {start size : Nat}
    (hclear : LogHeader.diskN (dev.disk start) = 0) (hroom : dev.lh.block.length < size)
    (houtside : ∀ home ∈ dev.lh.block, OutsideLog start size home)
    (hword : ∀ home ∈ dev.lh.block, home < 2 ^ 32) :
    ∃ writes, (commit start : Solo Unit).trace dev = some writes ∧ ∀ (cut : Nat) (cuts : List Nat),
        ∃ final, reboot start cuts (replay (writes.take cut) dev.disk) = some final ∧
          (∀ home ∈ dev.lh.block, final home =
            if ∃ write ∈ writes.take cut, write.1 = start then dev.contents home
            else dev.disk home) ∧
          (∀ blockno, OutsideLog start size blockno → blockno ∉ dev.lh.block →
            final blockno = dev.disk blockno) ∧
          LogHeader.diskN (final start) = 0 := by
  have hquiet : Quiet start size dev.disk dev.disk := ⟨hclear, fun _ _ => rfl⟩
  obtain ⟨writes, htrace, -, hcrash⟩ := hquiet.committed ⟨hroom, houtside⟩ hword
  refine ⟨writes, htrace, fun cut cuts => ?_⟩
  obtain ⟨final, hfinal, hquiet⟩ := (hcrash cut).reboot (Nat.zero_lt_of_lt hroom) cuts
  refine ⟨final, hfinal, ?_, ?_, hquiet.clear⟩
  · intro home hhome
    rw [hquiet.home home (houtside home hhome)]
    split <;> simp [installed, hhome]
  · intro blockno hout hnot
    rw [hquiet.home blockno hout]
    split <;> simp [installed, hnot]

/-- A disk of zeros with the log in blocks 2 to 31, and new cached contents for blocks 46 and 33. -/
def twoBlocks : Dev where
  disk := fun _ => Bytes.Buffer.zeros
  cache := fun blockno =>
    if blockno = 46 ∨ blockno = 33 then some (Bytes.Buffer.zeros.writeLE 4 0 blockno) else none
  lh := ⟨[46, 33], by decide⟩
  writes := []

theorem twoBlocks_clear : LogHeader.diskN (twoBlocks.disk 2) = 0 := by
  show LogHeader.diskN Bytes.Buffer.zeros = 0
  rw [LogHeader.diskN, Bytes.Buffer.readLE_zeros]
  rfl

theorem commit_crash_atomic_twoBlocks :
    ∃ writes, (commit 2 : Solo Unit).trace twoBlocks = some writes ∧
      ∀ (cut : Nat) (cuts : List Nat),
        ∃ final, reboot 2 cuts (replay (writes.take cut) twoBlocks.disk) = some final ∧
          (∀ home ∈ [46, 33], final home =
            if ∃ write ∈ writes.take cut, write.1 = 2 then twoBlocks.contents home
            else twoBlocks.disk home) ∧
          (∀ blockno, OutsideLog 2 30 blockno → blockno ∉ [46, 33] →
            final blockno = twoBlocks.disk blockno) ∧
          LogHeader.diskN (final 2) = 0 :=
  commit_crash_atomic twoBlocks_clear (by decide) (by simp [twoBlocks, OutsideLog])
    (by simp [twoBlocks])

/-! ### The life of a disk -/

/-- A transaction that fits the log: the blocks it changes, and what the cache holds. -/
structure Txn (start size : Nat) where
  lh : LogHeader
  cached : Disk
  fits : Loggable start size lh
  word : ∀ home ∈ lh.block, home < 2 ^ 32

/-- The device when the transaction is about to be committed. -/
def Txn.ready (t : Txn start size) (disk : Disk) : Dev := ⟨disk, some ∘ t.cached, t.lh, []⟩

/-- The disk when the `commit`s of these transactions have returned. -/
def commitAll : List (Txn start size) → Disk → Option Disk
  | [], disk => some disk
  | t :: ts, disk => ((commit start : Solo Unit).trace (t.ready disk)).bind fun writes =>
    commitAll ts (replay writes disk)

/-- One boot, up to the crash that ends it. -/
inductive Boot (start size : Nat) where
  /-- The crash cuts recovery off after `cut` writes. -/
  | recovers (cut : Nat)
  /-- After recovery the `commit`s of `done` return, and that of `last` is cut off. -/
  | works (done : List (Txn start size)) (last : Txn start size) (cut : Nat)

/-- The disk that a boot leaves, and the transactions that have happened in it. Recovery of a
transaction spoils the reference counts of the cache, on which later ones rely, so a boot that has
found one in the log makes none. -/
def Boot.run (disk : Disk) (b : Boot start size) : Option (Disk × List (Txn start size)) :=
  ((recoverFromLog start : Solo Unit).trace (.boot disk)).bind fun writes =>
    match b with
    | .recovers cut => some (replay (writes.take cut) disk, [])
    | .works done last cut =>
      if LogHeader.diskN (disk start) ≠ 0 then some (replay writes disk, [])
      else (commitAll done (replay writes disk)).bind fun disk =>
        ((commit start : Solo Unit).trace (last.ready disk)).map fun writes =>
          (replay (writes.take cut) disk,
            if ∃ write ∈ writes.take cut, write.1 = start then done ++ [last] else done)

/-- One boot after the other. -/
def bootAll : List (Boot start size) → Disk → Option (Disk × List (Txn start size))
  | [], disk => some (disk, [])
  | b :: boots, disk => (b.run disk).bind fun (disk, ts) =>
    (bootAll boots disk).map fun (disk, ts') => (disk, ts ++ ts')

/-- Transactions as their user sees them: each one happens at once. -/
def happen (ts : List (Txn start size)) (view : Disk) : Disk :=
  ts.foldl (fun view t => installed t.lh t.cached view) view

/-- What `commit` has returned for is on the disk. -/
theorem Quiet.commitAll (h : Quiet start size view disk) (ts : List (Txn start size)) :
    ∃ final, Log.commitAll ts disk = some final ∧ Quiet start size (happen ts view) final := by
  induction ts generalizing view disk with
  | nil => exact ⟨disk, rfl, h⟩
  | cons t ts ih =>
    have hdev : Quiet start size view (t.ready disk).disk := h
    obtain ⟨writes, htrace, hquiet, -⟩ := hdev.committed t.fits t.word
    obtain ⟨final, hfinal, hhappen⟩ := ih hquiet
    exact ⟨final, by rw [Log.commitAll, htrace]; exact hfinal, hhappen⟩

/-- A boot leaves what has happened before it and in it, on the disk or in the log. -/
theorem Recoverable.boot (hsize : 0 < size) (h : Recoverable start size view disk)
    (b : Boot start size) :
    ∃ crashed ts, b.run disk = some (crashed, ts) ∧
      Recoverable start size (happen ts view) crashed := by
  obtain ⟨writes, htrace, hquiet, hcut⟩ := h.recover hsize
  rw [Boot.run, htrace, Option.bind_some]
  cases b with
  | recovers cut => exact ⟨_, [], rfl, hcut cut⟩
  | works done last cut =>
    by_cases hfound : LogHeader.diskN (disk start) ≠ 0
    · exact ⟨_, [], if_pos hfound, .inl hquiet⟩
    · obtain ⟨mid, hmid, hdone⟩ := hquiet.commitAll done
      have hdev : Quiet start size (happen done view) (last.ready mid).disk := hdone
      obtain ⟨writes', htrace', -, hcrash⟩ := hdev.committed last.fits last.word
      simp only [if_neg hfound, hmid, htrace', Option.bind_some, Option.map_some]
      refine ⟨_, _, rfl, ?_⟩
      rw [apply_ite (happen · view), happen, foldl_append]
      exact hcrash cut

/-- Over any number of crashes, no transaction whose `commit` returned is lost, and one that was cut
off happens as a whole or not at all: whatever recoveries follow the last crash, the disk outside
the log is what the transactions give when they happen at once and in order. -/
theorem boots_keep_committed (hsize : 0 < size) (hclear : LogHeader.diskN (disk start) = 0)
    (boots : List (Boot start size)) :
    ∃ crashed ts, bootAll boots disk = some (crashed, ts) ∧ ∀ cuts, ∃ final,
      reboot start cuts crashed = some final ∧ LogHeader.diskN (final start) = 0 ∧
        ∀ blockno, OutsideLog start size blockno → final blockno = happen ts disk blockno := by
  suffices hlife : ∀ view disk, Recoverable start size view disk → ∃ crashed ts,
      bootAll boots disk = some (crashed, ts) ∧ Recoverable start size (happen ts view) crashed by
    obtain ⟨crashed, ts, hboots, hcrashed⟩ := hlife disk disk (.inl ⟨hclear, fun _ _ => rfl⟩)
    refine ⟨crashed, ts, hboots, fun cuts => ?_⟩
    obtain ⟨final, hfinal, hquiet⟩ := hcrashed.reboot hsize cuts
    exact ⟨final, hfinal, hquiet.clear, hquiet.home⟩
  induction boots with
  | nil => exact fun view disk h => ⟨disk, [], rfl, h⟩
  | cons b boots ih =>
    intro view disk h
    obtain ⟨mid, ts, hmid, hcrashed⟩ := h.boot hsize b
    obtain ⟨crashed, ts', hboots, hlast⟩ := ih _ _ hcrashed
    refine ⟨crashed, ts ++ ts', ?_, by rwa [happen, foldl_append]⟩
    simp only [bootAll, hmid, hboots, Option.bind_some, Option.map_some]

/-- The transaction of `twoBlocks`. -/
def twoTxn : Txn 2 30 where
  lh := twoBlocks.lh
  cached := twoBlocks.contents
  fits := ⟨by decide, by simp [twoBlocks, OutsideLog]⟩
  word := by simp [twoBlocks]

/-- The `commit` of `twoTxn` is cut off behind its header, then the first recovery behind its first
write. The next boot finds the transaction, and the last one makes it once more. -/
theorem boots_keep_committed_twoTxn : ∃ crashed ts,
    bootAll [.works [] twoTxn 3, .recovers 1, .works [twoTxn] twoTxn 0, .works [twoTxn] twoTxn 2]
      twoBlocks.disk = some (crashed, ts) ∧ ts.length = 2 ∧ ∀ cuts, ∃ final,
        reboot 2 cuts crashed = some final ∧ final 46 = happen ts twoBlocks.disk 46 := by
  obtain ⟨crashed, ts, hboots, hfinal⟩ := boots_keep_committed (by decide) twoBlocks_clear
    [.works [] twoTxn 3, .recovers 1, .works [twoTxn] twoTxn 0, .works [twoTxn] twoTxn 2]
  have hlength : (bootAll [.works [] twoTxn 3, .recovers 1, .works [twoTxn] twoTxn 0,
      .works [twoTxn] twoTxn 2] twoBlocks.disk).map (fun r => r.2.length) = some 2 := by
    decide +kernel
  rw [hboots] at hlength
  refine ⟨crashed, ts, hboots, Option.some.inj hlength, fun cuts => ?_⟩
  obtain ⟨final, hreboot, -, hhome⟩ := hfinal cuts
  exact ⟨final, hreboot, hhome 46 (by decide)⟩

end Xv6.Log
