import Xv6.Virtio.System
import Mathlib.Data.List.Range

/-!
# The invariant of the disk driver

Every descriptor that is not free is owned by one process. A process that waits for the device has
three of them, linked from head to data to status. Each published request is in one place: in the
avail ring, with the device, or in the used ring, and until its `b->disk` is cleared a process waits
for it. Since that process has a descriptor of its own that is no head, less than `NUM` requests
can be on their way at any time, and so the rings never overflow.

`Inv.local` is for steps of a process, `Inv.device` for steps of the device.
-/

namespace Xv6.Virtio

open Interleave Function List Option

variable {Pid Buf : Type}

/-! ### What a process knows -/

/-- A request that is being put together. -/
structure Draft (Buf : Type) where
  b : Buf
  write : Bool
  sector : Nat
  head : Nat
  data : Nat
  status : Nat

/-- What a process is doing. -/
inductive Stage (Buf : Type) where
  | none
  /-- It has allocated descriptors. -/
  | holds (l : List Nat)
  /-- It has done `k` of the steps of putting a request together. -/
  | formatting (d : Draft Buf) (k : Nat)
  /-- It waits for the device. -/
  | waiting (r : Request Buf)
  /-- It has seen that its request is done. -/
  | done (r : Request Buf)
  /-- It is about to free a chain. -/
  | freeing (l : List Nat)
  /-- It has freed `i` and will look where the chain goes on. -/
  | freed (i : Nat) (l : List Nat)
  /-- An interrupt that has seen an entry in the used ring. -/
  | found
  /-- An interrupt that has read the entry. -/
  | elem (id : Nat)

/-- The descriptors of a request. -/
def Request.descs (r : Request Buf) : List Nat := [r.head, r.data, r.status]

/-- The descriptors that a process owns. -/
def Stage.descs : Stage Buf → List Nat
  | .none => []
  | .holds l => l
  | .formatting d _ => [d.head, d.data, d.status]
  | .waiting r => r.descs
  | .done r => r.descs
  | .freeing l => l
  | .freed _ l => l
  | .found => []
  | .elem _ => []

/-- The stages in which a process need not have the lock. -/
def Stage.unlocked : Stage Buf → Bool
  | .none => true
  | .waiting _ => true
  | _ => false

/-- What a process knows: whether it has `vdisk_lock`, which buffer it has locked, and what it is
doing. -/
structure Own (Buf : Type) where
  locked : Bool
  buf : Option Buf
  stage : Stage Buf

/-- Descriptor `i` points to the first one of `l`. -/
def LinkTo (s : State Pid Buf) (i : Nat) : List Nat → Prop
  | [] => (s.desc i).flags &&& VRING_DESC_F_NEXT = 0
  | j :: _ => (s.desc i).flags &&& VRING_DESC_F_NEXT ≠ 0 ∧ (s.desc i).next.toNat = j

/-- The descriptors are a chain. -/
def Links (s : State Pid Buf) : List Nat → Prop
  | [] => True
  | i :: l => LinkTo s i l ∧ Links s l

/-- A chain from the header to the data of the buffer to the status. -/
structure Chain (s : State Pid Buf) (r : Request Buf) : Prop where
  links : Links s r.descs
  data : (s.desc r.data).addr = .data r.b
  status : (s.desc r.status).addr = .status r.head

/-- The numbers of the requests whose `b->disk` has been cleared. -/
def State.finished (s : State Pid Buf) : List Nat := s.cleared.map Clearing.number

/-- The first `k` steps of putting a request together. -/
structure Formatted (s : State Pid Buf) (d : Draft Buf) (k : Nat) : Prop where
  header : 1 ≤ k → s.desc d.head = headerDesc d.write d.sector d.data
  data : 2 ≤ k → s.desc d.data = dataDesc d.b d.write d.status
  status : 3 ≤ k → s.desc d.status = statusDesc d.head
  info : 4 ≤ k → s.disk d.b = true ∧ (s.info d.head).b = some d.b
  avail : 5 ≤ k → s.avail (Ring.slot NUM s.availIdx) = d.head

/-- A request that is on its way. -/
structure OnWay (s : State Pid Buf) (r : Request Buf) : Prop where
  chain : Chain s r
  info : (s.info r.head).b = some r.b
  published : s.requests[r.number]? = some (r.head, r.b)
  disk : s.disk r.b = true ↔ r.number ∉ s.finished

/-- What the stage of a process says. -/
def StageOk (s : State Pid Buf) (p : Pid) (buf : Option Buf) : Stage Buf → Prop
  | .none => s.request p = none
  | .holds _ => s.request p = none
  | .formatting d k => s.request p = none ∧ buf = some d.b ∧ Formatted s d k
  | .waiting r => s.request p = some r ∧ buf = some r.b ∧ OnWay s r
  | .done r => s.request p = some r ∧ buf = some r.b ∧ OnWay s r ∧ r.number ∈ s.finished
  | .freeing l => s.request p = none ∧ Links s l
  | .freed i l => s.request p = none ∧ LinkTo s i l ∧ Links s l
  | .found => s.request p = none ∧ s.cleared.length < s.completed.length
  | .elem id => s.request p = none ∧ ∃ t, s.completed[s.cleared.length]? = some (id, t)

/-- What a process knows is true. -/
structure Knows (s : State Pid Buf) (p : Pid) (own : Own Buf) : Prop where
  locked : s.lock = some p ↔ own.locked = true
  buf : ∀ b, s.bufLock b = some p ↔ own.buf = some b
  nodup : own.stage.descs.Nodup
  lt : ∀ i ∈ own.stage.descs, i < NUM
  stage : StageOk s p own.buf own.stage
  needsLock : own.stage.unlocked = false → own.locked = true

/-! ### The rings -/

/-- The numbers of the requests that have not been completed. -/
def State.before (s : State Pid Buf) : List Nat :=
  List.range' s.taken.length (s.requests.length - s.taken.length) ++
    s.serving.map Prod.snd ++ s.served.map Prod.snd

/-- The rings, and the places in which the requests are. -/
structure RingsOk (s : State Pid Buf) : Prop where
  avail : Ring.Represents s.avail s.lastAvail s.availIdx (s.requests.map Prod.fst) s.taken
  used : Ring.Represents s.usedElems (BitVec.ofNat 16 s.cleared.length) s.usedId
    (s.completed.map Prod.fst) (s.cleared.map Clearing.id)
  usedIdx : s.usedIdx.toNat = s.cleared.length % NUM
  accounts : (s.before ++ s.completed.map Prod.snd).Perm (List.range s.requests.length)
  heads : ∀ chain ∈ s.serving ++ s.served ++ s.completed,
    ∃ b, s.requests[chain.2]? = some (chain.1, b)
  finished : s.finished <+: s.completed.map Prod.snd
  buffers : ∀ c ∈ s.cleared, ∃ head, s.requests[c.number]? = some (head, c.b)

/-- The invariant. -/
structure Inv (s : State Pid Buf) (g : Agent Pid → Own Buf) : Prop where
  knows : ∀ p, Knows s p (g (.proc p))
  owned : ∀ i, i < NUM → (s.free i = true ↔ ∀ p, i ∉ (g (.proc p)).stage.descs)
  apart : ∀ p q i, i ∈ (g (.proc p)).stage.descs → i ∈ (g (.proc q)).stage.descs → p = q
  rings : RingsOk s
  pending : ∀ t, t < s.requests.length → t ∉ s.finished → ∃ p r, s.request p = some r ∧ r.number = t

/-- What an agent knows between two calls. -/
def idle : Agent Pid → Label Buf → Own Buf → Prop
  | .device, label, _ => label = .device
  | .proc _, .out, own => own = ⟨false, none, .none⟩
  | .proc _, .alloc b _ _, own => own = ⟨true, some b, .none⟩
  | .proc _, .waiting b head, own => ∃ r, own = ⟨true, some b, .waiting r⟩ ∧ r.b = b ∧ r.head = head
  | .proc _, .freeing b i, own => ∃ l, own = ⟨true, some b, .freeing (i :: l)⟩
  | .proc _, .intr, own => own = ⟨true, none, .none⟩
  | .proc _, .device, _ => False

/-- How the processes and the device share the disk; only a request that failed may panic. -/
def discipline (Pid Buf : Type) [DecidableEq Pid] [DecidableEq Buf] :
    Discipline (machine Pid Buf) (Own Buf) where
  inv := Inv
  needs := fun _ _ _ => True
  idle := idle
  allowed := fun message => message = "virtio_disk_intr status"
  guard := fun _ _ _ => True

section Triples

variable {α : Type} [DecidableEq Pid] [DecidableEq Buf] (a : Agent Pid) (own : Own Buf)
  (prog : Code Buf α)

abbrev Triple (post : α → Own Buf → Prop) : Prop := (discipline Pid Buf).Triple a own prog post

abbrev Moves (own' : Own Buf) : Prop := (discipline Pid Buf).Moves a own prog own'

end Triples

variable {s s' : State Pid Buf} {g : Agent Pid → Own Buf} {p q : Pid} {own own' : Own Buf}

/-! ### Links -/

variable {l : List Nat}

theorem LinkTo.keep {i : Nat} (h : LinkTo s i l)
    (hflags : (s'.desc i).flags = (s.desc i).flags) (hnext : (s'.desc i).next = (s.desc i).next) :
    LinkTo s' i l := by
  cases l with
  | nil => simpa only [LinkTo, hflags] using h
  | cons j l => simpa only [LinkTo, hflags, hnext] using h

theorem Links.keep (h : Links s l) (hflags : ∀ i ∈ l, (s'.desc i).flags = (s.desc i).flags)
    (hnext : ∀ i ∈ l, (s'.desc i).next = (s.desc i).next) : Links s' l := by
  induction l with
  | nil => trivial
  | cons i l ih =>
    refine ⟨h.1.keep (hflags i mem_cons_self) (hnext i mem_cons_self), ?_⟩
    exact ih h.2 (fun j hj => hflags j (mem_cons_of_mem i hj))
      fun j hj => hnext j (mem_cons_of_mem i hj)

variable {r : Request Buf}

/-- A request stays on its way while its descriptors stay as they are. -/
theorem OnWay.keep (h : OnWay s r) (hdesc : ∀ i ∈ r.descs, s'.desc i = s.desc i)
    (hinfo : (s'.info r.head).b = (s.info r.head).b) (hrequests : s.requests <+: s'.requests)
    (hdisk : s'.disk r.b = true ↔ r.number ∉ s'.finished) : OnWay s' r where
  chain :=
    { links := h.chain.links.keep (fun i hi => by rw [hdesc i hi]) fun i hi => by rw [hdesc i hi]
      data := by
        rw [hdesc r.data (by simp [Request.descs])]
        exact h.chain.data
      status := by
        rw [hdesc r.status (by simp [Request.descs])]
        exact h.chain.status }
  info := hinfo.trans h.info
  published := by
    obtain ⟨hlt, -⟩ := List.getElem?_eq_some_iff.mp h.published
    obtain ⟨rest, hrest⟩ := hrequests
    rw [← hrest, List.getElem?_append_left hlt]
    exact h.published
  disk := hdisk

/-! ### How many requests can be on their way -/

theorem Knows.waiting (h : Knows s p own) (hr : s.request p = some r) :
    own.stage.descs = r.descs ∧ own.buf = some r.b ∧ OnWay s r := by
  have hstage := h.stage
  cases hown : own.stage with
  | waiting r' =>
    rw [hown] at hstage
    obtain rfl : r' = r := some.inj (hstage.1.symm.trans hr)
    exact ⟨rfl, hstage.2⟩
  | done r' =>
    rw [hown] at hstage
    obtain rfl : r' = r := some.inj (hstage.1.symm.trans hr)
    exact ⟨rfl, hstage.2.1, hstage.2.2.1⟩
  | none | holds l =>
    rw [hown] at hstage
    simpa using Eq.symm hstage |>.trans hr
  | _ =>
    rw [hown] at hstage
    simpa using hstage.1.symm.trans hr

/-- Less than `NUM` requests are on their way: their heads are descriptors of different processes,
and each of these processes has another descriptor as well. -/
theorem Inv.length_lt (h : Inv s g) (hnodup : l.Nodup)
    (hl : ∀ t ∈ l, t < s.requests.length ∧ t ∉ s.finished) : l.length < NUM := by
  -- the process that waits for a request, and the request
  have hwaits : ∀ t ∈ l, ∃ p r, s.request p = some r ∧ r.number = t ∧
      r.head ∈ (g (.proc p)).stage.descs ∧ r.data ∈ (g (.proc p)).stage.descs ∧
      r.head ≠ r.data ∧ s.requests[t]? = some (r.head, r.b) := by
    intro t ht
    obtain ⟨p, r, hr, rfl⟩ := h.pending t (hl t ht).1 (hl t ht).2
    obtain ⟨hdescs, -, hway⟩ := (h.knows p).waiting hr
    have hnodup := (h.knows p).nodup
    rw [hdescs, Request.descs, nodup_cons] at hnodup
    refine ⟨p, r, hr, rfl, ?_, ?_, fun heq => hnodup.1 ?_, hway.published⟩
    · rw [hdescs]
      exact mem_cons_self
    · rw [hdescs]
      exact mem_cons_of_mem _ mem_cons_self
    · rw [heq]
      exact mem_cons_self
  let head : Nat → Nat := fun t => ((s.requests[t]?).map Prod.fst).getD 0
  cases hcase : l with
  | nil => decide
  | cons t₀ rest =>
    rw [← hcase]
    obtain ⟨p₀, r₀, hr₀, -, hhead₀, hdata₀, hne₀, -⟩ :=
      hwaits t₀ (by rw [hcase]; exact mem_cons_self)
    have hmap : (l.map head).Nodup := by
      refine List.Nodup.map_on ?_ hnodup
      intro t ht t' ht' heq
      obtain ⟨p, r, hr, rfl, hhead, -, -, hpub⟩ := hwaits t ht
      obtain ⟨p', r', hr', rfl, hhead', -, -, hpub'⟩ := hwaits t' ht'
      have hsame : r.head = r'.head := by
        simpa [head, hpub, hpub'] using heq
      obtain rfl := h.apart p p' r.head hhead (hsame ▸ hhead')
      obtain rfl : r = r' := some.inj (hr.symm.trans hr')
      rfl
    have hsub : l.map head ⊆ (List.range NUM).erase r₀.data := by
      intro i hi
      obtain ⟨t, ht, rfl⟩ := mem_map.mp hi
      obtain ⟨p, r, hr, rfl, hhead, -, -, hpub⟩ := hwaits t ht
      have heq : head r.number = r.head := by simp [head, hpub]
      rw [heq]
      have hlt := (h.knows p).lt r.head hhead
      refine (mem_erase_of_ne ?_).mpr (mem_range.mpr hlt)
      intro hdata
      obtain rfl := h.apart p p₀ r.head hhead (hdata ▸ hdata₀)
      obtain rfl : r = r₀ := some.inj (hr.symm.trans hr₀)
      exact hne₀ hdata
    have hlen := (subperm_of_subset hmap hsub).length_le
    rw [length_map, length_erase_of_mem
      (mem_range.mpr ((h.knows p₀).lt r₀.data hdata₀)), length_range] at hlen
    have : 0 < NUM := by decide
    omega

variable {t : Nat}

/-- No request is in two places. -/
theorem RingsOk.nodup (h : RingsOk s) : (s.before ++ s.completed.map Prod.snd).Nodup :=
  h.accounts.nodup_iff.mpr nodup_range

/-- The requests that the device has not completed have not been finished. -/
theorem RingsOk.not_finished (h : RingsOk s) (ht : t ∈ s.before) : t ∉ s.finished := by
  intro hfin
  exact (nodup_append.mp h.nodup).2.2 t ht t (h.finished.subset hfin) rfl

theorem RingsOk.lt_of_mem (h : RingsOk s)
    (ht : t ∈ s.before ++ s.completed.map Prod.snd) : t < s.requests.length :=
  mem_range.mp (h.accounts.mem_iff.mp ht)

theorem Inv.avail_room (h : Inv s g) : s.requests.length < s.taken.length + NUM := by
  have hsub : ∀ t ∈ List.range' s.taken.length (s.requests.length - s.taken.length),
      t ∈ s.before := fun t ht => mem_append_left _ (mem_append_left _ ht)
  have hlen := h.length_lt (nodup_range' ..) fun t ht =>
    ⟨h.rings.lt_of_mem (mem_append_left _ (hsub t ht)), h.rings.not_finished (hsub t ht)⟩
  rw [length_range'] at hlen
  omega

theorem Inv.unseen (h : Inv s g) (ht : t ∈ (s.completed.map Prod.snd).drop s.cleared.length) :
    t < s.requests.length ∧ t ∉ s.finished := by
  refine ⟨h.rings.lt_of_mem (mem_append_right _ (mem_of_mem_drop ht)), fun hfin => ?_⟩
  have htake : s.finished = (s.completed.map Prod.snd).take s.cleared.length := by
    have := prefix_iff_eq_take.mp h.rings.finished
    rwa [State.finished, length_map] at this
  have hsplit := (nodup_append.mp h.rings.nodup).2.1
  rw [← take_append_drop s.cleared.length (s.completed.map Prod.snd)] at hsplit
  exact (nodup_append.mp hsplit).2.2 t (htake ▸ hfin) t ht rfl

/-- The number of entries in the used ring that no interrupt has seen. -/
theorem Inv.used_lt (h : Inv s g) : s.completed.length < s.cleared.length + NUM := by
  have hdrop : ((s.completed.map Prod.snd).drop s.cleared.length).Nodup :=
    (nodup_append.mp h.rings.nodup).2.1.sublist (drop_sublist ..)
  have hlen := h.length_lt hdrop fun t ht => h.unseen ht
  rw [length_drop, length_map] at hlen
  omega

/-! ### Steps -/

/-- A process without the lock keeps what it knows when somebody who has the lock writes to other
descriptors, and to another buffer. -/
theorem Knows.other (h : Knows s q own) (hnot : own.locked = false)
    (hlock : s'.lock = some q ↔ s.lock = some q)
    (hbuf : ∀ b, s'.bufLock b = some q ↔ s.bufLock b = some q)
    (hrequest : s'.request q = s.request q)
    (hway : ∀ r, own.stage = .waiting r → OnWay s r → OnWay s' r) : Knows s' q own := by
  refine ⟨hlock.trans h.locked, fun b => (hbuf b).trans (h.buf b), h.nodup, h.lt, ?_, h.needsLock⟩
  have hstage := h.stage
  cases hown : own.stage with
  | none =>
    rw [hown] at hstage
    exact hrequest.trans hstage
  | waiting r =>
    rw [hown] at hstage
    exact ⟨hrequest.trans hstage.1, hstage.2.1, hway r hown hstage.2.2⟩
  | _ =>
    -- in the other stages the process would have the lock
    have hlocked := h.needsLock (by rw [hown]; rfl)
    rw [hnot] at hlocked
    cases hlocked

/-- The step leaves what the driver has written. -/
structure Quiet (s s' : State Pid Buf) : Prop where
  desc : s'.desc = s.desc
  info : ∀ i, (s'.info i).b = (s.info i).b
  disk : s'.disk = s.disk
  avail : s'.avail = s.avail
  availIdx : s'.availIdx = s.availIdx
  cleared : s'.cleared = s.cleared
  requests : s'.requests = s.requests
  request : s'.request = s.request
  completed : s.completed <+: s'.completed

variable {buf : Option Buf}

theorem StageOk.quiet {stage : Stage Buf} (h : StageOk s p buf stage)
    (hquiet : Quiet s s') : StageOk s' p buf stage := by
  have hrequest : s'.request p = s.request p := by rw [hquiet.request]
  have hlinks : ∀ l, Links s l → Links s' l := fun l hl =>
    hl.keep (fun i _ => by rw [hquiet.desc]) fun i _ => by rw [hquiet.desc]
  have hway : ∀ r, OnWay s r → OnWay s' r := by
    intro r hr
    refine hr.keep (fun i _ => by rw [hquiet.desc]) (hquiet.info r.head)
      (by rw [hquiet.requests]) ?_
    rw [hquiet.disk, State.finished, hquiet.cleared]
    exact hr.disk
  cases stage with
  | none | holds l => exact hrequest.trans h
  | formatting d k =>
    refine ⟨hrequest.trans h.1, h.2.1, ?_⟩
    obtain ⟨hheader, hdata, hstatus, hinfo, havail⟩ := h.2.2
    refine ⟨?_, ?_, ?_, ?_, ?_⟩
    · rwa [hquiet.desc]
    · rwa [hquiet.desc]
    · rwa [hquiet.desc]
    · rwa [hquiet.disk, hquiet.info]
    · rwa [hquiet.avail, hquiet.availIdx]
  | waiting r => exact ⟨hrequest.trans h.1, h.2.1, hway r h.2.2⟩
  | done r =>
    refine ⟨hrequest.trans h.1, h.2.1, hway r h.2.2.1, ?_⟩
    rw [State.finished, hquiet.cleared]
    exact h.2.2.2
  | freeing l => exact ⟨hrequest.trans h.1, hlinks l h.2⟩
  | freed i l =>
    refine ⟨hrequest.trans h.1, h.2.1.keep ?_ ?_, hlinks l h.2.2⟩
    · rw [hquiet.desc]
    · rw [hquiet.desc]
  | found =>
    refine ⟨hrequest.trans h.1, ?_⟩
    rw [hquiet.cleared]
    exact h.2.trans_le hquiet.completed.length_le
  | elem id =>
    obtain ⟨t, ht⟩ := h.2
    refine ⟨hrequest.trans h.1, t, ?_⟩
    obtain ⟨hlt, -⟩ := List.getElem?_eq_some_iff.mp ht
    obtain ⟨rest, hrest⟩ := hquiet.completed
    rwa [hquiet.cleared, ← hrest, List.getElem?_append_left hlt]

theorem Inv.device (h : Inv s g) (hquiet : Quiet s s') (hlock : s'.lock = s.lock)
    (hbuf : s'.bufLock = s.bufLock) (hfree : s'.free = s.free) (hrings : RingsOk s') :
    Inv s' g := by
  refine ⟨?_, ?_, h.apart, hrings, ?_⟩
  · intro p
    have hknows := h.knows p
    refine ⟨?_, ?_, hknows.nodup, hknows.lt, hknows.stage.quiet hquiet, hknows.needsLock⟩
    · rw [hlock]
      exact hknows.locked
    · rw [hbuf]
      exact hknows.buf
  · rw [hfree]
    exact h.owned
  · rw [hquiet.requests, hquiet.request, State.finished, hquiet.cleared]
    exact h.pending

/-- At most one process has the lock. -/
theorem Inv.not_locked (h : Inv s g) (hp : s.lock = some p) (hq : q ≠ p) :
    (g (.proc q)).locked = false := by
  rw [Bool.eq_false_iff]
  exact fun htrue => hq (some.inj (((h.knows q).locked.mpr htrue).symm.trans hp))

variable [DecidableEq Pid]

theorem update_proc_of_ne (hq : q ≠ p) : update g (.proc p) own (.proc q) = g (.proc q) :=
  update_of_ne (fun heq => hq (Agent.proc.inj heq)) ..

/-- A step that changes no stage leaves the descriptors to the processes. -/
theorem stage_update (hstage : own.stage.descs = (g (.proc p)).stage.descs) (q : Pid) :
    (update g (.proc p) own (.proc q)).stage.descs = (g (.proc q)).stage.descs := by
  by_cases hq : q = p
  · rwa [hq, update_self]
  · rw [update_proc_of_ne hq]

/-- A step of process `p`, which has the lock, on its own descriptors and its own buffer. -/
theorem Inv.local (h : Inv s g) (hown : g (.proc p) = own) (hlocked : own.locked = true)
    (hself : Knows s' p own') (hlock : ∀ q, q ≠ p → s'.lock ≠ some q)
    (hbuf : ∀ q, q ≠ p → ∀ b, s'.bufLock b = some q ↔ s.bufLock b = some q)
    (hrequest : ∀ q, q ≠ p → s'.request q = s.request q)
    (hdesc : ∀ i, i ∉ own.stage.descs → s'.desc i = s.desc i)
    (hinfo : ∀ i, i ∉ own.stage.descs → (s'.info i).b = (s.info i).b)
    (hdisk : ∀ b, own.buf ≠ some b → s'.disk b = s.disk b) (hcleared : s'.cleared = s.cleared)
    (hrequests : s.requests <+: s'.requests)
    (hfree : ∀ i, i < NUM → i ∉ own.stage.descs → i ∉ own'.stage.descs → s'.free i = s.free i)
    (hfreed : ∀ i ∈ own.stage.descs, i ∉ own'.stage.descs → s'.free i = true)
    (hheld : ∀ i ∈ own'.stage.descs, s'.free i = false ∧ (i ∈ own.stage.descs ∨ s.free i = true))
    (hrings : RingsOk s')
    (hpending : ∀ t, t < s'.requests.length → t ∉ s.finished →
      (∃ r, s'.request p = some r ∧ r.number = t) ∨
        t < s.requests.length ∧ ∀ r, s.request p = some r → r.number ≠ t) :
    Inv s' (update g (.proc p) own') := by
  have hupdate : update g (.proc p) own' (.proc p) = own' := update_self ..
  have hne : ∀ q, q ≠ p → update g (.proc p) own' (.proc q) = g (.proc q) :=
    fun q hq => update_proc_of_ne hq
  have hp : s.lock = some p := (h.knows p).locked.mpr (hown ▸ hlocked)
  -- the descriptors of the others are not those of `p`
  have hapart : ∀ q, q ≠ p → ∀ i ∈ (g (.proc q)).stage.descs, i ∉ own.stage.descs := by
    intro q hq i hi hmine
    exact hq (h.apart q p i hi (hown ▸ hmine))
  have hapart' : ∀ q, q ≠ p → ∀ i ∈ (g (.proc q)).stage.descs, i ∉ own'.stage.descs := by
    intro q hq i hi hmine
    rcases (hheld i hmine).2 with hold | hfree
    · exact hapart q hq i hi hold
    · exact (h.owned i ((h.knows q).lt i hi)).mp hfree q hi
  refine ⟨?_, ?_, ?_, hrings, ?_⟩
  · intro q
    by_cases hq : q = p
    · rwa [hq, hupdate]
    · rw [hne q hq]
      have hknows := h.knows q
      have hother : s.lock ≠ some q := fun hs => hq (some.inj (hs.symm.trans hp))
      refine hknows.other (h.not_locked hp hq) (iff_of_false (hlock q hq) hother) (hbuf q hq)
        (hrequest q hq) fun r hr hway => ?_
      have hdescs : ∀ i ∈ r.descs, i ∉ own.stage.descs := by
        intro i hi
        refine hapart q hq i ?_
        rwa [hr]
      have hstage := hknows.stage
      rw [hr] at hstage
      refine hway.keep (fun i hi => hdesc i (hdescs i hi))
        (hinfo r.head (hdescs r.head mem_cons_self)) hrequests ?_
      have hb : own.buf ≠ some r.b := by
        intro hmine
        have h₁ := (h.knows p).buf r.b
        rw [hown] at h₁
        have h₂ := (hknows.buf r.b).mpr hstage.2.1
        exact hq (some.inj (h₂.symm.trans (h₁.mpr hmine)))
      rw [hdisk r.b hb, State.finished, hcleared]
      exact hway.disk
  · intro i hi
    by_cases hmine' : i ∈ own'.stage.descs
    · rw [(hheld i hmine').1]
      refine iff_of_false (by simp) fun hnone => hnone p ?_
      rwa [hupdate]
    · have hall : (∀ q, i ∉ (update g (.proc p) own' (.proc q)).stage.descs) ↔
          ∀ q, q ≠ p → i ∉ (g (.proc q)).stage.descs := by
        constructor
        · intro hnone q hq
          have := hnone q
          rwa [hne q hq] at this
        · intro hnone q
          by_cases hq : q = p
          · rwa [hq, hupdate]
          · rw [hne q hq]
            exact hnone q hq
      rw [hall]
      by_cases hmine : i ∈ own.stage.descs
      · exact iff_of_true (hfreed i hmine hmine') fun q hq hi' => hapart q hq i hi' hmine
      · rw [hfree i hi hmine hmine', h.owned i hi]
        constructor
        · exact fun hnone q _ => hnone q
        · intro hnone q
          by_cases hq : q = p
          · rwa [hq, hown]
          · exact hnone q hq
  · refine unique_step (r := p) h.apart (fun q hq i hi => ?_) fun q hq i hi => ?_
    · rwa [hne q hq] at hi
    · rw [hupdate]
      exact hapart' q hq i hi
  · intro t ht hfin
    rw [State.finished, hcleared] at hfin
    rcases hpending t ht hfin with ⟨r, hr, hnumber⟩ | ⟨hlt, hnot⟩
    · exact ⟨p, r, hr, hnumber⟩
    · obtain ⟨q, r, hr, hnumber⟩ := h.pending t hlt hfin
      have hq : q ≠ p := by
        rintro rfl
        exact hnot r hr hnumber
      exact ⟨q, r, (hrequest q hq).trans hr, hnumber⟩

theorem Inv.relock (h : Inv s g) (hown : g (.proc p) = own) {locked : Bool}
    {lock : Option Pid} {bufLock : Buf → Option Pid}
    (hlock : ∀ q, q ≠ p → (lock = some q ↔ s.lock = some q))
    (hbuf : ∀ q, q ≠ p → ∀ b, bufLock b = some q ↔ s.bufLock b = some q)
    (hlocked : lock = some p ↔ locked = true) (hbufs : ∀ b, bufLock b = some p ↔ buf = some b)
    (hstage : StageOk s p own.buf own.stage → StageOk s p buf own.stage)
    (hneeds : own.stage.unlocked = false → locked = true) :
    Inv { s with lock := lock, bufLock := bufLock }
      (update g (.proc p) ⟨locked, buf, own.stage⟩) := by
  have hdescs : ∀ q, (update g (.proc p) ⟨locked, buf, own.stage⟩ (.proc q)).stage.descs =
      (g (.proc q)).stage.descs := stage_update (by rw [hown])
  have hquiet : Quiet s { s with lock := lock, bufLock := bufLock } :=
    ⟨rfl, fun _ => rfl, rfl, rfl, rfl, rfl, rfl, rfl, prefix_rfl⟩
  refine ⟨?_, ?_, ?_, ?_, h.pending⟩
  · intro q
    have hknows := h.knows q
    by_cases hq : q = p
    · subst hq
      rw [hown] at hknows
      rw [update_self]
      exact ⟨hlocked, hbufs, hknows.nodup, hknows.lt, (hstage hknows.stage).quiet hquiet, hneeds⟩
    · rw [update_proc_of_ne hq]
      exact ⟨(hlock q hq).trans hknows.locked, fun b => (hbuf q hq b).trans (hknows.buf b),
        hknows.nodup, hknows.lt, hknows.stage.quiet hquiet, hknows.needsLock⟩
  · intro i hi
    rw [h.owned i hi]
    exact forall_congr' fun q => by rw [hdescs q]
  · intro q₁ q₂ i h₁ h₂
    rw [hdescs q₁] at h₁
    rw [hdescs q₂] at h₂
    exact h.apart q₁ q₂ i h₁ h₂
  · exact ⟨h.rings.avail, h.rings.used, h.rings.usedIdx, h.rings.accounts, h.rings.heads,
      h.rings.finished, h.rings.buffers⟩

end Xv6.Virtio
