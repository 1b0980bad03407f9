import Xv6.Virtio.Completion

/-!
# The request protocol of the disk driver

The rules of the operations, put together along the code of the driver and of the device. Read
`virtio_protocol` first: it holds for any number of processes and buffers, in every configuration
that they, the interrupts and the device can reach, however often the counters of the rings wrap.
-/

namespace Xv6.Virtio

open Interleave List Discipline

variable {Pid Buf : Type} {s : State Pid Buf} {g : Agent Pid → Own Buf} {p : Pid} {own : Own Buf}
  {buf : Option Buf} {b : Buf} {write : Bool} {sector : Nat} {l : List Nat} {i : Nat}
  {r : Request Buf}

/-! ### Consequences of the invariant -/

theorem inv_initial (blockno : Buf → Nat) :
    Inv (initial blockno : State Pid Buf) fun _ => ⟨false, none, .none⟩ where
  knows := fun p => ⟨by simp [initial], by simp [initial], nodup_nil, nofun, rfl, nofun⟩
  owned := by
    intro i hi
    exact iff_of_true (decide_eq_true hi) fun _ => not_mem_nil
  apart := nofun
  rings :=
    { avail := .nil _
      used := .nil _
      usedIdx := rfl
      accounts := .nil
      heads := nofun
      finished := nil_prefix
      buffers := nofun }
  pending := nofun

/-- A request in flight has three descriptors of its own, which are a chain from head to data to
status, and the buffer says so until the request has been dealt with. -/
structure InFlight (s : State Pid Buf) (p : Pid) (r : Request Buf) : Prop where
  nodup : r.descs.Nodup
  lt : ∀ i ∈ r.descs, i < NUM
  notFree : ∀ i ∈ r.descs, s.free i = false
  chain : Chain s r
  alone : ∀ q r', s.request q = some r' → q ≠ p → ∀ i ∈ r.descs, i ∉ r'.descs
  busy : s.disk r.b = true ↔ r.number ∉ s.finished

theorem Inv.inFlight (h : Inv s g) (hr : s.request p = some r) : InFlight s p r := by
  have hknows := h.knows p
  obtain ⟨hdescs, -, hway⟩ := hknows.waiting hr
  refine ⟨hdescs ▸ hknows.nodup, hdescs ▸ hknows.lt, ?_, hway.chain, ?_, hway.disk⟩
  · intro i hi
    exact h.not_free rfl (hdescs ▸ hi)
  · intro q r' hr' hq i hi hi'
    obtain ⟨hdescs', -, -⟩ := (h.knows q).waiting hr'
    exact hq (h.apart q p i (hdescs' ▸ hi') (hdescs ▸ hi))

/-- While nobody has the lock, the descriptors in use are those of the requests in flight. -/
theorem Inv.used_iff (h : Inv s g) (hlock : s.lock = none) (hi : i < NUM) :
    s.free i = false ↔ ∃ p r, s.request p = some r ∧ i ∈ r.descs := by
  constructor
  · intro hused
    have hnot : ¬∀ p, i ∉ (g (.proc p)).stage.descs := by
      intro hnone
      rw [(h.owned i hi).mpr hnone] at hused
      cases hused
    obtain ⟨p, hp⟩ := not_forall_not.mp hnot
    have hknows := h.knows p
    have hunlocked : (g (.proc p)).stage.unlocked = true := by
      by_contra hneeds
      have hlocked := hknows.needsLock (Bool.eq_false_iff.mpr hneeds)
      rw [hknows.locked.mpr hlocked] at hlock
      cases hlock
    have hstage := hknows.stage
    cases hown : (g (.proc p)).stage with
    | waiting r =>
      rw [hown] at hstage hp
      exact ⟨p, r, hstage.1, hp⟩
    | none =>
      rw [hown] at hp
      exact absurd hp not_mem_nil
    | _ =>
      rw [hown] at hunlocked
      cases hunlocked
  · rintro ⟨p, r, hr, hmem⟩
    exact (h.inFlight hr).notFree i hmem

/-- A clearing belongs to a completed chain and to the buffer it was published for. -/
theorem RingsOk.clearing (h : RingsOk s) {c : Clearing Buf} (hc : c ∈ s.cleared) :
    (c.id, c.number) ∈ s.completed ∧ s.requests[c.number]? = some (c.id, c.b) := by
  obtain ⟨k, hk, rfl⟩ := getElem_of_mem hc
  have hlt : k < s.completed.length := by
    have := h.finished.length_le
    rw [State.finished, length_map, length_map] at this
    omega
  have hid : (s.completed[k]).1 = (s.cleared[k]).id := by
    have := h.used.isPrefix.getElem (by rwa [length_map])
    simpa using this.symm
  have hnumber : (s.completed[k]).2 = (s.cleared[k]).number := by
    have := h.finished.getElem (by rwa [State.finished, length_map])
    simpa [State.finished] using this.symm
  have hmem : ((s.cleared[k]).id, (s.cleared[k]).number) ∈ s.completed := by
    rw [← hid, ← hnumber]
    exact getElem_mem hlt
  refine ⟨hmem, ?_⟩
  obtain ⟨b, hb⟩ := h.heads _ (mem_append_right _ hmem)
  obtain ⟨head, hhead⟩ := h.buffers _ (getElem_mem hk)
  have heq := Option.some.inj (hb.symm.trans hhead)
  rwa [(Prod.mk.inj heq).2] at hb

variable [DecidableEq Pid] [DecidableEq Buf]

/-! ### virtio_disk_rw -/

/-- What a process knows when `alloc3_desc` has returned. -/
def allocated (buf : Option Buf) : Option (Nat × Nat × Nat) → Own Buf
  | some (i₀, i₁, i₂) => ⟨true, buf, .holds [i₀, i₁, i₂]⟩
  | none => ⟨true, buf, .none⟩

theorem triple_alloc3Desc : Triple (.proc p) ⟨true, buf, .none⟩ alloc3Desc
      fun result own' => own' = allocated buf result := by
  refine .bind_eq (triple_allocDesc (l := [])) fun first => ?_
  cases first with
  | none => exact .ret rfl
  | some i₀ =>
    refine .bind_eq triple_allocDesc fun second => ?_
    cases second with
    | none => exact .seq triple_freeDesc_undo (.ret rfl)
    | some i₁ =>
      refine .bind_eq triple_allocDesc fun third => ?_
      cases third with
      | none =>
        refine .seq triple_freeDesc_undo ?_
        exact .seq triple_freeDesc_undo (.ret rfl)
      | some i₂ => exact .ret rfl

theorem triple_submit {i₀ i₁ i₂ : Nat} : Triple (.proc p) ⟨true, some b, .holds [i₀, i₁, i₂]⟩
      (submit b write sector i₀ i₁ i₂) fun label own' => idle (.proc p) label own' := by
  let d : Draft Buf := ⟨b, write, sector, i₀, i₁, i₂⟩
  refine triple_begin (d := d) ?_
  refine .seq (triple_setHeader (d := d)) ?_
  refine .seq triple_setData ?_
  refine .seq triple_clearStatus ?_
  refine .seq triple_setStatus ?_
  refine .seq triple_setInfo ?_
  refine .seq triple_setAvail ?_
  exact .bind triple_bumpAvail fun _ own' h => .ret h

theorem triple_rwAlloc : Triple (.proc p) ⟨true, some b, .none⟩ (rwAlloc b write sector)
      fun label own' => idle (.proc p) label own' := by
  refine .bind_eq triple_alloc3Desc fun result => ?_
  cases result with
  | some descs => exact triple_submit
  | none =>
    refine .seq (triple_release rfl) ?_
    exact .seq triple_acquire (.ret rfl)

theorem triple_rwWait : Triple (.proc p) ⟨true, some r.b, .waiting r⟩ (rwWait r.b r.head)
      fun label own' => idle (.proc p) label own' := by
  refine .bind_eq triple_isBusy fun busy => ?_
  cases busy with
  | true =>
    refine .seq (triple_release rfl) ?_
    exact .seq triple_acquire (.ret ⟨r, rfl, rfl, rfl⟩)
  | false => exact .seq triple_clearInfo (.ret ⟨[r.data, r.status], rfl⟩)

theorem triple_rwFree : Triple (.proc p) ⟨true, some b, .freeing (i :: l)⟩ (rwFree b i)
      fun label own' => idle (.proc p) label own' := by
  refine .seq triple_freeDesc_chain ?_
  refine .bind triple_nextDesc fun next own' h => ?_
  cases next with
  | some j =>
    obtain ⟨rest, -, rfl⟩ := h
    exact .ret ⟨rest, rfl⟩
  | none =>
    obtain ⟨-, rfl⟩ := h
    refine .seq (triple_release rfl) ?_
    exact .seq triple_unlockBuf (.ret rfl)

/-! ### virtio_disk_intr -/

theorem triple_intrRound : (discipline Pid Buf).Triple (.proc p) ⟨true, none, .none⟩ intrRound
      fun label own' => idle (.proc p) label own' := by
  refine .bind_eq triple_hasUsed fun more => ?_
  cases more with
  | false => exact .seq (triple_release rfl) (.ret rfl)
  | true =>
    refine .bind_eq triple_usedElem fun id => ?_
    refine .bind_eq triple_status fun status => ?_
    split
    · exact .bind (triple_step fun _ _ _ _ _ => rfl) fun _ _ h => .ret h
    · exact .seq triple_finish (.ret rfl)

/-! ### Every call -/

theorem triple_sector : Moves (.proc p) own (.perform (.sector b)) own :=
  Discipline.Triple.mono
    (triple_read (fun s => s.blockno b * (BSIZE / 512) % 2 ^ 32) (fun _ => rfl) (fun _ => True)
      fun _ _ _ _ => trivial)
    fun _ _ h => h.1

variable {call : Call Buf}

theorem calls_proc {label : Label Buf} (hidle : idle (.proc p) label own) :
    (discipline Pid Buf).Calls (.proc p) own (code label call) := by
  cases label with
  | device => exact hidle.elim
  | out =>
    obtain rfl : own = _ := hidle
    cases call with
    | rw b write =>
      refine .made ?_
      refine .seq triple_lockBuf ?_
      refine .bind_eq triple_sector fun sector => ?_
      exact .seq triple_acquire (.ret rfl)
    | intr => exact .made (.bind_eq triple_acquire fun _ => .ret rfl)
    | _ => exact .refused
  | alloc b write sector =>
    obtain rfl : own = _ := hidle
    cases call with
    | goOn => exact .made triple_rwAlloc
    | _ => exact .refused
  | waiting b head =>
    obtain ⟨r, rfl, rfl, rfl⟩ := hidle
    cases call with
    | goOn => exact .made triple_rwWait
    | _ => exact .refused
  | freeing b i =>
    obtain ⟨l, rfl⟩ := hidle
    cases call with
    | goOn => exact .made triple_rwFree
    | _ => exact .refused
  | intr =>
    obtain rfl : own = _ := hidle
    cases call with
    | goOn => exact .made triple_intrRound
    | _ => exact .refused

theorem calls_device : (discipline Pid Buf).Calls .device own (code .device call) := by
  cases call with
  | take => exact .made (.bind triple_take fun _ _ _ => .ret rfl)
  | serve k => exact .made (.bind triple_serve fun _ _ _ => .ret rfl)
  | append k => exact .made (.bind triple_append fun _ _ _ => .ret rfl)
  | _ => exact .refused

theorem codeSafe : (discipline Pid Buf).CodeSafe := by
  refine codeSafe_of_calls fun a label own call hidle => ?_
  cases a with
  | proc p => exact calls_proc hidle
  | device =>
    obtain rfl : label = .device := hidle
    exact calls_device

/-! ### Every run -/

theorem holds_run {blockno : Buf → Nat}
    {config : Config (Agent Pid) (Op Buf) Res (State Pid Buf) (Label Buf)}
    (h : (machine Pid Buf).Run (fun _ _ => True) (start blockno) config) :
    (discipline Pid Buf).Holds config := by
  have hstart : (discipline Pid Buf).Holds (start blockno) := by
    refine ⟨⟨fun _ => ⟨false, none, .none⟩, inv_initial blockno, fun a => ?_⟩, nofun⟩
    cases a with
    | proc p => rfl
    | device => rfl
  exact holds_of_run codeSafe hstart (h.mono fun a e _ => meets_of_guard (fun _ _ _ => trivial) a e)

/-- The request protocol. In every configuration: a request in flight has three descriptors of its
own, linked from head to data to status. While nobody has `vdisk_lock`, no other descriptor is in
use, and so all are free if nothing is in flight. No `b->disk` is cleared twice for one request, and
a clearing for a request comes after the device has completed its chain and clears the `b->disk` of
its buffer. A request for which it has not been cleared is in flight, with `b->disk` set. And the
only panic is the one for a request that the device could not carry out. -/
theorem virtio_protocol {blockno : Buf → Nat}
    {config : Config (Agent Pid) (Op Buf) Res (State Pid Buf) (Label Buf)}
    (h : (machine Pid Buf).Run (fun _ _ => True) (start blockno) config) :
    (∀ p r, config.state.request p = some r → InFlight config.state p r) ∧
    (config.state.lock = none → ∀ i, i < NUM →
      (config.state.free i = false ↔ ∃ p r, config.state.request p = some r ∧ i ∈ r.descs)) ∧
    (config.state.lock = none → (∀ p, config.state.request p = none) →
      ∀ i, i < NUM → config.state.free i = true) ∧
    config.state.finished.Nodup ∧
    (∀ c ∈ config.state.cleared, (c.id, c.number) ∈ config.state.completed ∧
      config.state.requests[c.number]? = some (c.id, c.b)) ∧
    (∀ t, t < config.state.requests.length → t ∉ config.state.finished →
      ∃ p r, config.state.request p = some r ∧ r.number = t ∧ config.state.disk r.b = true) ∧
    (∀ message, config.panicked = some message → message = "virtio_disk_intr status") := by
  obtain ⟨⟨g, hinv, -⟩, hpanic⟩ := holds_run h
  refine ⟨fun p r hr => hinv.inFlight hr, fun hlock i hi => hinv.used_iff hlock hi, ?_, ?_,
    fun c hc => hinv.rings.clearing hc, ?_, hpanic⟩
  · intro hlock hnone i hi
    by_contra hused
    obtain ⟨p, r, hr, -⟩ := (hinv.used_iff hlock hi).mp (Bool.eq_false_iff.mpr hused)
    rw [hnone p] at hr
    cases hr
  · exact (nodup_append.mp hinv.rings.nodup).2.1.sublist hinv.rings.finished.sublist
  · intro t ht hfin
    obtain ⟨p, r, hr, rfl⟩ := hinv.pending t ht hfin
    exact ⟨p, r, hr, rfl, (hinv.inFlight hr).busy.mpr hfin⟩

/-- A call and a number of its operations. -/
def steps (a : Agent (Fin 3)) (call : Call (Fin 2)) (operations : Nat) :
    List (Event (Agent (Fin 3)) (Call (Fin 2)) (BitVec 8)) :=
  .call a call 0 :: List.replicate operations (.step a 0)

/-- Two processes publish requests; the second is completed first and returns while the first waits.
-/
def outOfOrder : List (Event (Agent (Fin 3)) (Call (Fin 2)) (BitVec 8)) :=
  steps (.proc 0) (.rw 0 true) 3 ++ steps (.proc 0) .goOn 10 ++ steps (.proc 0) .goOn 2 ++
    steps (.proc 1) (.rw 1 false) 3 ++ steps (.proc 1) .goOn 10 ++ steps (.proc 1) .goOn 2 ++
    steps .device .take 1 ++ steps .device .take 1 ++ steps .device (.serve 1) 1 ++
    steps .device (.append 0) 1 ++
    steps (.proc 2) .intr 1 ++ steps (.proc 2) .goOn 4 ++ steps (.proc 2) .goOn 2 ++
    [.step (.proc 1) 0] ++ steps (.proc 1) .goOn 2 ++ steps (.proc 1) .goOn 2 ++
    steps (.proc 1) .goOn 2 ++ steps (.proc 1) .goOn 4

theorem virtio_protocol_outOfOrder :
    ∃ config, (machine (Fin 3) (Fin 2)).Run (fun _ _ => True) (start fun b => b.val) config ∧
      config.state.finished = [1] ∧ config.state.request 1 = none ∧ config.state.free 3 = true ∧
      ∃ r, config.state.request 0 = some r ∧ r.number = 0 ∧ InFlight config.state 0 r := by
  have hplay : ((machine (Fin 3) (Fin 2)).play (fun _ _ => true) outOfOrder
      (start fun b => b.val)).map
      (fun c => (c.state.finished, (c.state.request 1).isNone, c.state.free 3,
        (c.state.request 0).map Request.number)) = some ([1], true, true, some 0) := by
    decide +kernel
  obtain ⟨config, hany, hvalue⟩ := Machine.exists_any_run hplay
  simp only [Prod.mk.injEq, Option.isNone_iff_eq_none, Option.map_eq_some_iff] at hvalue
  obtain ⟨hfinished, hnone, hfree, r, hr, hnumber⟩ := hvalue
  exact ⟨config, hany, hfinished, hnone, hfree, r, hr, hnumber, (virtio_protocol hany).1 0 r hr⟩

end Xv6.Virtio
