import Xv6.Pipe.System

/-!
# A pipe is a bounded queue

The invariant of the pipe and the proof that `pipewrite`, `piperead` and `pipeclose` keep it. What a
process knows is whether it holds the lock, and whether it has seen room for a byte or a byte to
read since. Read `pipe_fifo` first.
-/

namespace Xv6.Pipe

open Interleave Function Discipline

variable {Pid : Type}

/-- What a process knows. -/
inductive Own where
  /-- It does not hold the lock. -/
  | out
  /-- It holds the lock. -/
  | locked
  /-- It holds the lock, and the pipe is not full. -/
  | room
  /-- It holds the lock, and the pipe is not empty. -/
  | bytes
  deriving DecidableEq

/-- The pipe holds the bytes that went in and have not come out. -/
def RingOk (s : State Pid) : Prop := Ring.Represents s.data s.nread s.nwrite s.enqueued s.dequeued

/-- What a process knows is true. -/
def Knows (s : State Pid) : Own → Prop
  | .room => s.enqueued.length < s.dequeued.length + PIPESIZE
  | .bytes => s.dequeued.length < s.enqueued.length
  | _ => True

/-- The invariant. -/
structure Inv (s : State Pid) (g : Pid → Own) : Prop where
  ring : RingOk s
  holder : ∀ p, g p ≠ .out → s.lock = some p
  knows : ∀ p, Knows s (g p)

theorem PIPESIZE_dvd : PIPESIZE ∣ 2 ^ 32 := by decide

theorem PIPESIZE_lt : PIPESIZE < 2 ^ 32 := by decide

/-! ### The contents of the pipe -/

variable {s s' : State Pid} {g : Pid → Own} {p : Pid} {own : Own}

theorem toNat_sub_eq (h : RingOk s) :
    (s.nwrite - s.nread).toNat = s.enqueued.length - s.dequeued.length :=
  Ring.Represents.toNat_sub h PIPESIZE_lt

theorem slot_unread (h : RingOk s) (k : Nat) : Ring.slot PIPESIZE (s.nread + BitVec.ofNat 32 k) =
      Fin.ofNat PIPESIZE (s.dequeued.length + k) := by
  rw [h.taken_eq, ← BitVec.ofNat_add, Ring.slot_ofNat PIPESIZE_dvd]

/-- What came out, followed by what is in the pipe, is what went in. -/
theorem enqueued_eq (h : RingOk s) : s.enqueued = s.dequeued ++ s.unread := by
  have hunread : s.unread = s.enqueued.drop s.dequeued.length := by
    have hsegment := h.segment_eq PIPESIZE_dvd PIPESIZE_lt le_rfl h.length_le le_rfl
    rw [← h.taken_eq, ← h.put_eq] at hsegment
    show Ring.segment s.data s.nread s.nwrite = _
    rw [hsegment, List.take_of_length_le (by rw [List.length_drop])]
  obtain ⟨rest, hrest⟩ := h.isPrefix
  rw [hunread, ← hrest, List.drop_left]

/-- While a process holds the lock, no other one knows anything. -/
theorem Inv.out_of_lock (h : Inv s g) (hlock : s.lock = some p) {q : Pid} (hq : q ≠ p) :
    g q = .out := by
  by_contra hne
  have hholder := h.holder q hne
  rw [hlock] at hholder
  exact hq (Option.some.inj hholder).symm

/-! ### The discipline -/

variable [DecidableEq Pid]

/-- A byte is stored by who has seen room for it, and taken by who has seen one to read. -/
def needs (o : Op) (own : Own) : Prop :=
  match o with
  | .put _ => own = .room
  | .take => own = .bytes
  | _ => True

/-- How the processes share the pipe. -/
def discipline (Pid : Type) [DecidableEq Pid] : Discipline (machine Pid) Own where
  inv := Inv
  needs := fun _ o own => needs o own
  idle := fun _ _ own => own = .out
  allowed := fun _ => True
  guard := fun _ _ _ => True

theorem Inv.step (h : Inv s g) (hlock : s.lock = some p) (hring : RingOk s')
    (hholder : own ≠ .out → s'.lock = some p) (hknows : Knows s' own) :
    Inv s' (update g p own) where
  ring := hring
  holder := by
    intro q hq
    by_cases hqp : q = p
    · subst hqp
      rw [update_self] at hq
      exact hholder hq
    · rw [update_of_ne hqp] at hq
      exact absurd (h.out_of_lock hlock hqp) hq
  knows := by
    intro q
    by_cases hqp : q = p
    · subst hqp
      rwa [update_self]
    · rw [update_of_ne hqp, h.out_of_lock hlock hqp]
      trivial

/-! ### The operations -/

variable {o : Op}

theorem triple_locked {post : Res o → Own → Prop} (hown : own ≠ .out) (hneeds : needs o own)
    (hstep : ∀ (s : State Pid) choice, RingOk s → Knows s own → s.lock = some p →
      (exec p choice o s).Ensures (fun _ => True) fun result s' =>
        ∃ own', post result own' ∧ RingOk s' ∧ (own' ≠ .out → s'.lock = some p) ∧ Knows s' own') :
    (discipline Pid).Triple p own (.perform o) post := by
  refine .perform rfl hneeds ?_
  intro s g choice hinv hgp _
  have hlock : s.lock = some p := hinv.holder p (by rw [hgp]; exact hown)
  have hknows : Knows s own := by
    rw [← hgp]
    exact hinv.knows p
  refine (hstep s choice hinv.ring hknows hlock).mono ?_
  intro result s' ⟨own', hpost, hring, hholder, hknows'⟩
  exact ⟨own', hinv.step hlock hring hholder hknows', hpost⟩

theorem triple_acquire : (discipline Pid).Moves p .out (.perform .acquire) .locked := by
  refine .perform rfl trivial ?_
  intro s g choice hinv hgp _
  show (exec p choice .acquire s).Ensures _ _
  simp only [exec]
  by_cases hfreed : s.freed = true
  · rw [if_pos hfreed]
    trivial
  · rw [if_neg hfreed]
    cases hlock : s.lock with
    | some q =>
      dsimp only
      split <;> trivial
    | none =>
      refine ⟨hinv.ring, ?_, ?_⟩
      · intro q hq
        by_cases hqp : q = p
        · rw [hqp]
        · rw [update_of_ne hqp] at hq
          have hholder := hinv.holder q hq
          rw [hlock] at hholder
          cases hholder
      · intro q
        by_cases hqp : q = p
        · rw [hqp, update_self]
          trivial
        · rw [update_of_ne hqp]
          exact hinv.knows q

theorem triple_release : (discipline Pid).Moves p .locked (.perform .release) .out := by
  refine triple_locked (by simp) trivial ?_
  intro s choice hring _ hlock
  simp only [exec, if_pos hlock]
  exact ⟨.out, rfl, hring, fun h => absurd rfl h, trivial⟩

/-- An operation that changes nothing that the invariant mentions. -/
theorem triple_look (hneeds : needs o .locked)
    (hexec : ∀ (s : State Pid) choice, ∃ result, exec p choice o s = .done result s) :
    (discipline Pid).Moves p .locked (.perform o) .locked := by
  refine triple_locked (by simp) hneeds ?_
  intro s choice hring _ hlock
  obtain ⟨result, hdone⟩ := hexec s choice
  rw [hdone]
  exact ⟨.locked, rfl, hring, fun _ => hlock, trivial⟩

/-- The test `pi->nwrite == pi->nread + PIPESIZE`. -/
theorem triple_isFull : (discipline Pid).Triple p .locked (.perform .isFull)
    fun full own' => own' = if full then .locked else .room := by
  refine triple_locked (by simp) trivial ?_
  intro s choice hring _ hlock
  refine ⟨_, rfl, hring, fun _ => hlock, ?_⟩
  by_cases hfull : s.nwrite = s.nread + BitVec.ofNat 32 PIPESIZE
  · simp [hfull, Knows]
  · have hne := mt (Ring.Represents.full_iff hring PIPESIZE_lt).mpr hfull
    have hroom : s.enqueued.length ≤ s.dequeued.length + PIPESIZE := hring.room
    rw [decide_eq_false hfull]
    show s.enqueued.length < s.dequeued.length + PIPESIZE
    omega

/-- The test `pi->nread == pi->nwrite`. -/
theorem triple_isEmpty : (discipline Pid).Triple p .locked (.perform .isEmpty)
    fun empty own' => own' = if empty then .locked else .bytes := by
  refine triple_locked (by simp) trivial ?_
  intro s choice hring _ hlock
  refine ⟨_, rfl, hring, fun _ => hlock, ?_⟩
  by_cases hempty : s.nread = s.nwrite
  · simp [hempty, Knows]
  · have hne := mt (Ring.Represents.empty_iff hring PIPESIZE_lt).mpr hempty
    have hle : s.dequeued.length ≤ s.enqueued.length := hring.length_le
    rw [decide_eq_false hempty]
    show s.dequeued.length < s.enqueued.length
    omega

theorem triple_copyin {i : Nat} : (discipline Pid).Moves p .room (.perform (.copyin i)) .room := by
  refine triple_locked (by simp) trivial ?_
  intro s choice hring hroom hlock
  exact ⟨.room, rfl, hring, fun _ => hlock, hroom⟩

theorem triple_forget {α : Type} {prog : Code α} {post : α → Own → Prop} (hown : own ≠ .out)
    (h : (discipline Pid).Triple p .locked prog post) :
    (discipline Pid).Triple p own prog post := by
  intro s g hinv
  have hlock : s.lock = some p := hinv.holder p (by rw [update_self]; exact hown)
  have hforget : Inv s (update (update g p own) p .locked) :=
    hinv.step hlock hinv.ring (fun _ => hlock) trivial
  rw [update_idem] at hforget
  exact h s g hforget

theorem triple_put {ch : UInt8} : (discipline Pid).Moves p .room (.perform (.put ch)) .locked := by
  refine triple_locked (by simp) rfl ?_
  intro s choice hring hroom hlock
  exact ⟨.locked, rfl, hring.push PIPESIZE_dvd hroom ch, fun _ => hlock, trivial⟩

theorem triple_take : (discipline Pid).Moves p .bytes (.perform .take) .locked := by
  refine triple_locked (by simp) rfl ?_
  intro s choice hring hbytes hlock
  exact ⟨.locked, rfl, hring.pop PIPESIZE_dvd hbytes, fun _ => hlock, trivial⟩

variable {writable : Bool}

theorem triple_close : (discipline Pid).Moves p .locked (.perform (.close writable)) .locked := by
  refine triple_locked (by simp) trivial ?_
  intro s choice hring _ hlock
  cases writable <;> exact ⟨.locked, rfl, hring, fun _ => hlock, trivial⟩

theorem triple_kfree : (discipline Pid).Moves p .out (.perform .kfree) .out := by
  refine .perform rfl trivial ?_
  intro s g choice hinv hgp _
  rw [← hgp, update_eq_self]
  exact ⟨hinv.ring, hinv.holder, hinv.knows⟩

/-! ### The code -/

theorem triple_wakeup {chan : Chan} : (discipline Pid).Moves p .locked (.perform (.wakeup chan))
    .locked :=
  triple_look trivial fun _ _ => ⟨(), rfl⟩

theorem triple_wakeup_release {chan : Chan} {label : Label} : (discipline Pid).Moves p .locked (do
      Prog.perform (Op.wakeup chan)
      Prog.perform Op.release
      pure label) .out := by
  refine .seq triple_wakeup ?_
  exact .seq triple_release (.ret rfl)

theorem triple_release_ret {label : Label} : (discipline Pid).Moves p .locked (do
      Prog.perform Op.release
      pure label) .out :=
  .seq triple_release (.ret rfl)

variable {n : Int}

theorem triple_pipewriteFull {left : Nat} :
    (discipline Pid).Moves p .locked (pipewriteFull n left) .out := by
  refine .bind_eq (triple_look trivial fun s _ => ⟨!s.readopen, rfl⟩) fun closed => ?_
  refine .bind_eq (triple_look trivial fun _ choice => ⟨choice.killed, rfl⟩) fun killed => ?_
  cases closed || killed with
  | true => exact triple_release_ret
  | false => exact triple_wakeup_release

/-- The loop of `pipewrite`, by induction on the bytes left to write. -/
theorem triple_pipewriteFrom (left : Nat) :
    (discipline Pid).Moves p .locked (pipewriteFrom n left) .out := by
  induction left with
  | zero => exact triple_wakeup_release
  | succ left ih =>
    refine .bind_eq triple_isFull fun full => ?_
    cases full with
    | true => exact triple_pipewriteFull
    | false =>
      refine .bind_eq triple_copyin fun byte => ?_
      cases byte with
      | none => exact triple_forget (by simp) triple_wakeup_release
      | some ch => exact .seq triple_put <| ih

/-- The copying loop of `piperead`, by induction on the bytes left to read. -/
theorem triple_pipereadFrom {n : Nat} (left : Nat) :
    (discipline Pid).Moves p .locked (pipereadFrom n left) .out := by
  induction left with
  | zero => exact triple_wakeup_release
  | succ left ih =>
    refine .bind_eq triple_isEmpty fun empty => ?_
    cases empty with
    | true => exact triple_wakeup_release
    | false =>
      refine .bind_eq triple_take fun ch => ?_
      refine .bind_eq (triple_look trivial fun _ choice => ⟨choice.copyout, rfl⟩) fun copied => ?_
      cases copied with
      | true => exact ih
      | false => exact triple_wakeup_release

theorem triple_pipereadEmpty : (discipline Pid).Moves p .locked (pipereadEmpty n) .out := by
  refine .bind_eq (triple_look trivial fun _ choice => ⟨choice.killed, rfl⟩) fun killed => ?_
  cases killed <;> exact triple_release_ret

theorem triple_pipereadWait : (discipline Pid).Moves p .locked (pipereadWait n) .out := by
  refine .bind_eq triple_isEmpty fun empty => ?_
  cases empty with
  | false => exact triple_forget (by simp) (triple_pipereadFrom n.toNat)
  | true =>
    refine .bind_eq (triple_look trivial fun s _ => ⟨s.writeopen, rfl⟩) fun writeopen => ?_
    cases writeopen with
    | true => exact triple_pipereadEmpty
    | false => exact triple_pipereadFrom n.toNat

theorem triple_pipecloseEnd : (discipline Pid).Moves p .locked pipecloseEnd .out := by
  refine .bind_eq (triple_look trivial fun s _ => ⟨!s.readopen && !s.writeopen, rfl⟩)
    fun closed => ?_
  cases closed with
  | true =>
    refine .seq triple_release ?_
    exact .seq triple_kfree (.ret rfl)
  | false => exact triple_release_ret

theorem triple_pipeclose : (discipline Pid).Moves p .out (pipeclose writable) .out := by
  refine .seq triple_acquire ?_
  refine .seq triple_close ?_
  refine .seq triple_wakeup ?_
  exact triple_pipecloseEnd

theorem codeSafe (Pid : Type) [DecidableEq Pid] : (discipline Pid).CodeSafe := by
  refine codeSafe_of_calls ?_
  intro p label own what hidle
  obtain rfl : own = .out := hidle
  cases label with
  | user result =>
    cases what with
    | write n => exact .made (.bind_eq triple_acquire fun _ => triple_pipewriteFrom _)
    | read n => exact .made (.bind_eq triple_acquire fun _ => triple_pipereadWait)
    | close writable => exact .made triple_pipeclose
    | goOn => exact .refused
  | writing n left =>
    cases what with
    | goOn => exact .made (.bind_eq triple_acquire fun _ => triple_pipewriteFrom left)
    | write _ | read _ | close _ => exact .refused
  | reading n =>
    cases what with
    | goOn => exact .made (.bind_eq triple_acquire fun _ => triple_pipereadWait)
    | write _ | read _ | close _ => exact .refused

/-! ### Every reachable state -/

variable {config : Config Pid Op Res (State Pid) Label}

/-- The invariant holds in every configuration that is reached from a new pipe. -/
theorem holds_of_created {data : Fin PIPESIZE → UInt8}
    (h : (machine Pid).Run (fun _ _ => True) (created data) config) :
    (discipline Pid).Holds config := by
  have hstart : (discipline Pid).Holds (created data) :=
    ⟨⟨fun _ => .out, ⟨.nil data, fun _ hne => absurd rfl hne, fun _ => trivial⟩, fun _ => rfl⟩,
      nofun⟩
  exact holds_of_run (codeSafe Pid) hstart
    (h.mono fun c e _ => meets_of_guard (fun _ _ _ => trivial) c e)

/-- Operations other than storing a byte leave the data as they are. -/
theorem data_exec {choice : Choice} {result : Res o} (h : exec p choice o s = .done result s') :
    s'.data = s.data ∨ ∃ ch, o = .put ch ∧ s' = s.put ch := by
  cases o with
  | put ch =>
    cases h
    exact .inr ⟨ch, rfl, rfl⟩
  | acquire =>
    simp only [exec] at h
    split at h
    · cases h
    · split at h
      · cases h
        exact .inl rfl
      · split at h <;> cases h
  | release =>
    simp only [exec] at h
    split at h
    · cases h
      exact .inl rfl
    · cases h
  | close writable =>
    cases h
    cases writable <;> exact .inl rfl
  | _ =>
    cases h
    exact .inl rfl

theorem data_next (hholds : (discipline Pid).Holds config) {event : Event Pid Call Choice}
    {config' : Config Pid Op Res (State Pid) Label}
    (hnext : (machine Pid).next config event = some config') {k : Nat}
    (hk : k < (config.state.nwrite - config.state.nread).toNat) :
    config'.state.data (Ring.slot PIPESIZE (config.state.nread + BitVec.ofNat 32 k)) =
      config.state.data (Ring.slot PIPESIZE (config.state.nread + BitVec.ofNat 32 k)) := by
  rcases hholds.state_cases (fun _ => rfl) hnext with
    hsame | ⟨pid, o, choice, ghost, result, hinv, hneeds, hexec⟩
  · rw [hsame]
  · rcases data_exec hexec with hdata | ⟨ch, rfl, hput⟩
    · rw [hdata]
    · have hring : RingOk config.state := hinv.ring
      have hknows := hinv.knows pid
      rw [show ghost pid = .room from hneeds] at hknows
      rw [toNat_sub_eq hring] at hk
      have hne := hring.slot_put_ne PIPESIZE_dvd hknows
        (show config.state.dequeued.length + k < config.state.enqueued.length by omega) (by omega)
      rw [hput, slot_unread hring k]
      exact update_of_ne hne _ _

/-- A pipe is a bounded queue in every state that any number of processes can bring it to, for any
number of bytes: what came out followed by the at most `PIPESIZE` bytes in `data` that have not been
read is what went in, and no step overwrites such a byte. -/
theorem pipe_fifo (data : Fin PIPESIZE → UInt8)
    (h : (machine Pid).Run (fun _ _ => True) (created data) config) :
    (config.state.nwrite - config.state.nread).toNat ≤ PIPESIZE ∧
      config.state.dequeued <+: config.state.enqueued ∧
      config.state.enqueued = config.state.dequeued ++ config.state.unread ∧
      ∀ event config', (machine Pid).next config event = some config' →
        ∀ k < (config.state.nwrite - config.state.nread).toNat,
          config'.state.data (Ring.slot PIPESIZE (config.state.nread + BitVec.ofNat 32 k)) =
            config.state.data (Ring.slot PIPESIZE (config.state.nread + BitVec.ofNat 32 k)) := by
  have hholds := holds_of_created h
  obtain ⟨ghost, hinv, -⟩ := hholds.state
  have hring : RingOk config.state := hinv.ring
  refine ⟨?_, hring.isPrefix, enqueued_eq hring, fun event config' hnext k hk =>
    data_next hholds hnext hk⟩
  rw [toNat_sub_eq hring]
  have hroom : config.state.enqueued.length ≤ config.state.dequeued.length + PIPESIZE := hring.room
  omega

/-- Process 0 writes two bytes, and process 1 reads one of them after it has slept. -/
def writeTwoReadOne : List (Event (Fin 2) Call Choice) :=
  let step (p : Fin 2) : Event (Fin 2) Call Choice := .step p ⟨false, some 7, true⟩
  [.call 1 (.read 1) ⟨false, none, true⟩] ++ List.replicate 5 (step 1) ++
    [.call 0 (.write 2) ⟨false, none, true⟩] ++ List.replicate 9 (step 0) ++
    [.call 1 .goOn ⟨false, none, true⟩] ++ List.replicate 7 (step 1)

theorem pipe_fifo_writeTwoReadOne :
    ∃ config, (machine (Fin 2)).Run (fun _ _ => True) (created fun _ => 0) config ∧
      config.state.enqueued = [7, 7] ∧ config.state.dequeued = [7] ∧
      config.state.enqueued = config.state.dequeued ++ config.state.unread := by
  have hplay : ((machine (Fin 2)).play (fun _ _ => true) writeTwoReadOne (created fun _ => 0)).map
      (fun c => (c.state.enqueued, c.state.dequeued)) = some ([7, 7], [7]) := by
    decide +kernel
  obtain ⟨config, hany, hvalue⟩ := Machine.exists_any_run hplay
  simp only [Prod.mk.injEq] at hvalue
  exact ⟨config, hany, hvalue.1, hvalue.2, (pipe_fifo _ hany).2.2.1⟩

end Xv6.Pipe
