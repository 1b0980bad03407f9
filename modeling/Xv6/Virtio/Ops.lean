import Xv6.Virtio.Invariant

/-!
# The operations of `virtio_disk_rw` keep the invariant

One rule for each operation of a process that allocates descriptors, puts a request together, waits
for the device, and frees the chain.
-/

namespace Xv6.Virtio

open Interleave Function List Option

variable {Pid Buf : Type} {s s' : State Pid Buf} {g : Agent Pid → Own Buf} {p q : Pid}
  {own own' : Own Buf} {locked : Bool} {buf : Option Buf} {stage : Stage Buf} {l : List Nat}
  {i : Nat}

/-- The stage of a process that has allocated some descriptors, or none. -/
def Stage.ofList : List Nat → Stage Buf
  | [] => .none
  | i :: l => .holds (i :: l)

@[simp] theorem Stage.descs_ofList (l : List Nat) : (Stage.ofList l : Stage Buf).descs = l := by
  cases l <;> rfl

theorem stageOk_ofList : StageOk s p buf (.ofList l) ↔ s.request p = none := by
  cases l <;> rfl

theorem Knows.restage (h : Knows s p own) (hlock : s'.lock = s.lock)
    (hbuf : s'.bufLock = s.bufLock) (hlocked : own.locked = true) (hnodup : stage.descs.Nodup)
    (hlt : ∀ i ∈ stage.descs, i < NUM) (hstage : StageOk s' p own.buf stage) :
    Knows s' p { own with stage := stage } where
  locked := by
    rw [hlock]
    exact h.locked
  buf := by
    rw [hbuf]
    exact h.buf
  nodup := hnodup
  lt := hlt
  stage := hstage
  needsLock := fun _ => hlocked

theorem Inv.not_free (h : Inv s g) (hown : g (.proc p) = own) (hi : i ∈ own.stage.descs) :
    s.free i = false := by
  subst hown
  rw [Bool.eq_false_iff]
  exact fun htrue => (h.owned i ((h.knows p).lt i hi)).mp htrue p hi

variable {d : Draft Buf} {k k' : Nat}

theorem RingsOk.same (h : RingsOk s) (havail : s'.avail = s.avail)
    (hlast : s'.lastAvail = s.lastAvail) (hidx : s'.availIdx = s.availIdx)
    (hrequests : s'.requests = s.requests) (htaken : s'.taken = s.taken)
    (helems : s'.usedElems = s.usedElems) (hcleared : s'.cleared = s.cleared)
    (hid : s'.usedId = s.usedId) (hcompleted : s'.completed = s.completed)
    (hused : s'.usedIdx = s.usedIdx) (hserving : s'.serving = s.serving)
    (hserved : s'.served = s.served) : RingsOk s' := by
  obtain ⟨h₁, h₂, h₃, h₄, h₅, h₆, h₇⟩ := h
  refine ⟨?_, ?_, ?_, ?_, ?_, ?_, ?_⟩
  · rwa [havail, hlast, hidx, hrequests, htaken]
  · rwa [helems, hcleared, hid, hcompleted]
  · rwa [hused, hcleared]
  · rwa [State.before, htaken, hrequests, hserving, hserved, hcompleted]
  · rwa [hserving, hserved, hcompleted, hrequests]
  · rwa [State.finished, hcleared, hcompleted]
  · rwa [hcleared, hrequests]

theorem num_dvd : NUM ∣ 2 ^ 16 := by decide

theorem Formatted.chain {number : Nat} (h : Formatted s d 5)
    (hlt : ∀ i ∈ [d.head, d.data, d.status], i < NUM) :
    Chain s ⟨number, d.b, d.head, d.data, d.status⟩ := by
  have hheader := h.header (by omega)
  have hdata := h.data (by omega)
  have hstatus := h.status (by omega)
  have hbound : ∀ i ∈ [d.head, d.data, d.status], (BitVec.ofNat 16 i).toNat = i := by
    intro i hi
    have := hlt i hi
    refine Nat.mod_eq_of_lt (this.trans ?_)
    decide
  refine ⟨⟨⟨?_, ?_⟩, ⟨?_, ?_⟩, ?_, trivial⟩, ?_, ?_⟩
  · show (s.desc d.head).flags &&& VRING_DESC_F_NEXT ≠ 0
    rw [hheader]
    show VRING_DESC_F_NEXT &&& VRING_DESC_F_NEXT ≠ 0
    decide
  · show (s.desc d.head).next.toNat = d.data
    rw [hheader]
    exact hbound d.data (by simp)
  · show (s.desc d.data).flags &&& VRING_DESC_F_NEXT ≠ 0
    rw [hdata]
    show ((if d.write then 0 else VRING_DESC_F_WRITE) ||| VRING_DESC_F_NEXT) &&&
      VRING_DESC_F_NEXT ≠ 0
    cases d.write <;> decide
  · show (s.desc d.data).next.toNat = d.status
    rw [hdata]
    exact hbound d.status (by simp)
  · show (s.desc d.status).flags &&& VRING_DESC_F_NEXT = 0
    rw [hstatus]
    show VRING_DESC_F_WRITE &&& VRING_DESC_F_NEXT = 0
    decide
  · show (s.desc d.data).addr = .data d.b
    rw [hdata]
    rfl
  · show (s.desc d.status).addr = .status d.head
    rw [hstatus]
    rfl

/-- Publishing a request whose head has been stored in the avail ring. -/
theorem RingsOk.publish (h : RingsOk s) (hroom : s.requests.length < s.taken.length + NUM)
    {head : Nat} {request : Pid → Option (Request Buf)}
    (hhead : s.avail (Ring.slot NUM s.availIdx) = head) :
    RingsOk { s with
      availIdx := s.availIdx + 1
      requests := s.requests ++ [(head, b)]
      request := request } := by
  have hle : s.taken.length ≤ s.requests.length := by
    have := h.avail.length_le
    rwa [length_map] at this
  have hgrow : ∀ (t : Nat) x, s.requests[t]? = some x →
      (s.requests ++ [(head, b)])[t]? = some x := by
    intro t x hx
    obtain ⟨hlt, -⟩ := List.getElem?_eq_some_iff.mp hx
    rwa [List.getElem?_append_left hlt]
  refine ⟨?_, h.used, h.usedIdx, ?_, ?_, h.finished, ?_⟩
  · show Ring.Represents s.avail s.lastAvail (s.availIdx + 1)
      ((s.requests ++ [(head, b)]).map Prod.fst) s.taken
    rw [map_append]
    exact h.avail.commit num_dvd (by rw [length_map]; exact hroom) hhead
  · -- the new number comes after those that the device has not taken
    have hrange : List.range' s.taken.length ((s.requests ++ [(head, b)]).length - s.taken.length) =
        List.range' s.taken.length (s.requests.length - s.taken.length) ++ [s.requests.length] := by
      rw [length_append, length_singleton, Nat.sub_add_comm hle, range'_concat]
      congr 2
      omega
    show (State.before _ ++ s.completed.map Prod.snd).Perm
      (List.range (s.requests ++ [(head, b)]).length)
    have hold := h.accounts
    unfold State.before at hold ⊢
    rw [hrange, length_append, length_singleton, range_succ]
    refine perm_iff_count.mpr fun t => ?_
    have hcount := hold.count_eq t
    simp only [count_append] at hcount ⊢
    omega
  · intro chain hchain
    obtain ⟨b', hb'⟩ := h.heads chain hchain
    exact ⟨b', hgrow _ _ hb'⟩
  · intro c hc
    obtain ⟨head', hhead'⟩ := h.buffers c hc
    exact ⟨head', hgrow _ _ hhead'⟩

variable [DecidableEq Pid] [DecidableEq Buf] {o : Op Buf}

theorem triple_step {post : Res o → Own Buf → Prop}
    (hstep : ∀ s g, Inv s g → g (.proc p) = own → Knows s p own →
      (execProc p o s).Ensures (fun message => message = "virtio_disk_intr status")
        fun result s' => ∃ own', Inv s' (update g (.proc p) own') ∧ post result own') :
    Triple (.proc p) own (.perform o) post :=
  .perform rfl trivial fun s g _ hinv hown _ => hstep s g hinv hown (hown ▸ hinv.knows p)

theorem triple_read (result : State Pid Buf → Res o)
    (hexec : ∀ s, execProc p o s = .done (result s) s) (post : Res o → Prop)
    (hpost : ∀ s g, Inv s g → g (.proc p) = own → post (result s)) :
    Triple (.proc p) own (.perform o) fun r own' => own' = own ∧ post r := by
  refine triple_step fun s g hinv hown _ => ?_
  rw [hexec s]
  refine ⟨own, ?_, rfl, hpost s g hinv hown⟩
  rwa [← hown, update_eq_self]

/-! ### Locks -/

variable {b : Buf}

/-- A process locks or unlocks a buffer. -/
theorem Inv.setBufLock {buf' : Option Buf} {holder : Option Pid} (h : Inv s g)
    (hown : g (.proc p) = ⟨false, buf, .none⟩)
    (hold : s.bufLock b = none ∨ s.bufLock b = some p) (hholder : holder = none ∨ holder = some p)
    (hself : holder = some p ↔ buf' = some b) (hrest : ∀ b', b' ≠ b → buf' ≠ some b')
    (hbuf : buf = none ∨ buf = some b) :
    Inv { s with bufLock := update s.bufLock b holder }
      (update g (.proc p) ⟨false, buf', .none⟩) := by
  have hknows : Knows s p ⟨false, buf, .none⟩ := hown ▸ h.knows p
  refine h.relock hown (fun _ _ => Iff.rfl) ?_ hknows.locked ?_ id nofun
  · intro q hq b'
    rw [update_apply]
    split
    next hb => rcases hold with hold | hold <;> rcases hholder with rfl | rfl <;>
        simp [hb, hold, Ne.symm hq]
    next => exact Iff.rfl
  · intro b'
    rw [update_apply]
    split
    next hb => rwa [hb]
    next hb => rcases hbuf with rfl | rfl <;> simp [hknows.buf b', hrest b' hb, Ne.symm hb]

theorem triple_lockBuf : Moves (.proc p) ⟨false, none, .none⟩ (.perform (.lockBuf b))
      ⟨false, some b, .none⟩ := by
  refine triple_step fun s g hinv hown hknows => ?_
  simp only [execProc]
  split
  next hfree =>
    exact ⟨_, hinv.setBufLock hown (.inl hfree) (.inr rfl) (by simp)
      (fun b' hb => by simp [Ne.symm hb]) (.inl rfl), rfl⟩
  next => trivial

theorem triple_unlockBuf : Moves (.proc p) ⟨false, some b, .none⟩ (.perform (.unlockBuf b))
      ⟨false, none, .none⟩ := by
  refine triple_step fun s g hinv hown hknows => ?_
  have hmine : s.bufLock b = some p := (hknows.buf b).mpr rfl
  exact ⟨_, hinv.setBufLock hown (.inr hmine) (.inl rfl) (by simp) (by simp) (.inr rfl), rfl⟩

theorem triple_acquire : Moves (.proc p) ⟨false, buf, stage⟩ (.perform .acquire)
      ⟨true, buf, stage⟩ := by
  refine triple_step fun s g hinv hown hknows => ?_
  simp only [execProc]
  split
  next hfree =>
    refine ⟨⟨true, buf, stage⟩, ?_, rfl⟩
    refine hinv.relock hown (fun q hq => ?_) (fun _ _ _ => Iff.rfl) (by simp) hknows.buf
      id fun _ => rfl
    rw [hfree]
    simp [Ne.symm hq]
  next q hq =>
    split
    next hqp =>
      -- the process does not have the lock
      have hlocked := hknows.locked.mp (hqp ▸ hq)
      cases hlocked
    next => trivial

theorem triple_release (hstage : stage.unlocked = true) :
    Moves (.proc p) ⟨true, buf, stage⟩ (.perform .release) ⟨false, buf, stage⟩ := by
  refine triple_step fun s g hinv hown hknows => ?_
  have hmine : s.lock = some p := hknows.locked.mpr rfl
  simp only [execProc]
  rw [if_pos hmine]
  refine ⟨⟨false, buf, stage⟩, ?_, rfl⟩
  refine hinv.relock hown (fun q hq => ?_) (fun _ _ _ => Iff.rfl) (by simp) hknows.buf
    id fun h => ?_
  · rw [hmine]
    simp [Ne.symm hq]
  · rw [show stage.unlocked = true from hstage] at h
    cases h

/-! ### Descriptors -/

omit [DecidableEq Buf] in
/-- A step under the lock that publishes no request, and drops only finished ones. -/
theorem Inv.keep (h : Inv s g) (hown : g (.proc p) = own) (hlocked : own.locked = true)
    (hlock : s'.lock = s.lock) (hbuf : s'.bufLock = s.bufLock)
    (hrequest : ∀ q, q ≠ p → s'.request q = s.request q) (hcleared : s'.cleared = s.cleared)
    (hrequests : s'.requests = s.requests) (hrings : RingsOk s')
    (hdesc : ∀ i, i ∉ own.stage.descs → s'.desc i = s.desc i)
    (hinfo : ∀ i, i ∉ own.stage.descs → (s'.info i).b = (s.info i).b)
    (hdisk : ∀ b, own.buf ≠ some b → s'.disk b = s.disk b)
    (hnodup : stage.descs.Nodup) (hlt : ∀ i ∈ stage.descs, i < NUM)
    (hstage : StageOk s' p own.buf stage)
    (hdone : ∀ r, s.request p = some r → r.number ∈ s.finished)
    (hfree : ∀ i, i < NUM → i ∉ own.stage.descs → i ∉ stage.descs → s'.free i = s.free i)
    (hfreed : ∀ i ∈ own.stage.descs, i ∉ stage.descs → s'.free i = true)
    (hheld : ∀ i ∈ stage.descs, s'.free i = false ∧ (i ∈ own.stage.descs ∨ s.free i = true)) :
    Inv s' (update g (.proc p) { own with stage := stage }) := by
  have hknows : Knows s p own := hown ▸ h.knows p
  refine h.local hown hlocked (hknows.restage hlock hbuf hlocked hnodup hlt hstage) ?_ ?_ hrequest
    hdesc hinfo hdisk hcleared (by rw [hrequests]) hfree hfreed hheld hrings ?_
  · intro q hq
    rw [hlock, hknows.locked.mpr hlocked]
    exact fun heq => hq (some.inj heq).symm
  · intro q _ b
    rw [hbuf]
  · intro t ht hfin
    rw [hrequests] at ht
    exact .inr ⟨ht, fun r hr hnumber => hfin (hnumber ▸ hdone r hr)⟩

omit [DecidableEq Buf] in
/-- A process that has the lock learns something; its descriptors stay the same. -/
theorem Inv.learn (h : Inv s g) (hown : g (.proc p) = own) (hlocked : own.locked = true)
    (hdescs : stage.descs = own.stage.descs) (hstage : StageOk s p own.buf stage)
    (hdone : ∀ r, s.request p = some r → r.number ∈ s.finished) :
    Inv s (update g (.proc p) { own with stage := stage }) := by
  have hknows : Knows s p own := hown ▸ h.knows p
  refine h.keep hown hlocked rfl rfl (fun _ _ => rfl) rfl rfl h.rings (fun _ _ => rfl)
    (fun _ _ => rfl) (fun _ _ => rfl) (hdescs ▸ hknows.nodup) (hdescs ▸ hknows.lt) hstage hdone
    (fun _ _ _ _ => rfl) ?_ ?_
  · rw [hdescs]
    exact fun _ hj hnot => absurd hj hnot
  · rw [hdescs]
    exact fun j hj => ⟨h.not_free hown hj, .inl hj⟩

theorem triple_allocDesc : Triple (.proc p) ⟨true, buf, .ofList l⟩ (.perform .allocDesc)
      fun result own' => own' = ⟨true, buf, .ofList (l ++ Option.toList result)⟩ := by
  refine triple_step fun s g hinv hown hknows => ?_
  have hnone : s.request p = none := stageOk_ofList.mp hknows.stage
  simp only [execProc]
  split
  next i hi =>
    have hfree : s.free i = true := find?_some hi
    have hlt : i < NUM := mem_range.mp (mem_of_find?_eq_some hi)
    have hnew : i ∉ l := by
      intro hmem
      refine (hinv.owned i hlt).mp hfree p ?_
      rwa [hown, Stage.descs_ofList]
    refine ⟨⟨true, buf, .ofList (l ++ [i])⟩, ?_, rfl⟩
    have hnodup := hknows.nodup
    have hall := hknows.lt
    simp only [Stage.descs_ofList] at hnodup hall
    refine hinv.keep hown rfl rfl rfl (fun _ _ => rfl) rfl rfl
      ⟨hinv.rings.avail, hinv.rings.used, hinv.rings.usedIdx, hinv.rings.accounts,
        hinv.rings.heads, hinv.rings.finished, hinv.rings.buffers⟩ (fun _ _ => rfl)
      (fun _ _ => rfl) (fun _ _ => rfl) ?_ ?_ (stageOk_ofList.mpr hnone) (by simp [hnone]) ?_ ?_ ?_
    · rw [Stage.descs_ofList]
      exact nodup_append.mpr ⟨hnodup, nodup_singleton i, by
        rintro a ha b hb rfl
        obtain rfl := mem_singleton.mp hb
        exact hnew ha⟩
    · intro j hj
      rw [Stage.descs_ofList, mem_append, mem_singleton] at hj
      rcases hj with hj | rfl
      · exact hall j hj
      · exact hlt
    · intro j _ _ hj
      rw [Stage.descs_ofList] at hj
      refine update_of_ne ?_ ..
      rintro rfl
      exact hj (mem_append_right _ mem_cons_self)
    · intro j hj hnot
      rw [Stage.descs_ofList] at hj hnot
      exact absurd (mem_append_left _ hj) hnot
    · intro j hj
      rw [Stage.descs_ofList, mem_append, mem_singleton] at hj
      rw [Stage.descs_ofList]
      rcases hj with hj | rfl
      · refine ⟨?_, .inl hj⟩
        show update s.free i false j = false
        have hne : j ≠ i := ne_of_mem_of_not_mem hj hnew
        rw [update_of_ne hne, Bool.eq_false_iff]
        intro htrue
        refine (hinv.owned j (hall j hj)).mp htrue p ?_
        rwa [hown, Stage.descs_ofList]
      · exact ⟨update_self .., .inr hfree⟩
  next =>
    refine ⟨⟨true, buf, .ofList l⟩, ?_, by simp⟩
    rwa [← hown, update_eq_self]

theorem triple_freeDesc {stage' : Stage Buf} (hdescs : stage.descs = i :: l)
    (hdescs' : stage'.descs = l)
    (hnone : ∀ s : State Pid Buf, StageOk s p buf stage → s.request p = none)
    (hstage : ∀ s : State Pid Buf, StageOk s p buf stage → StageOk (s.freeDesc i) p buf stage') :
    Moves (.proc p) ⟨true, buf, stage⟩ (.perform (.freeDesc i)) ⟨true, buf, stage'⟩ := by
  refine triple_step fun s g hinv hown hknows => ?_
  have hmem : ∀ j, j ∈ i :: l → j ∈ (g (.proc p)).stage.descs := by
    intro j hj
    rwa [hown, hdescs]
  have hlt : ∀ j ∈ i :: l, j < NUM := fun j hj => (hinv.knows p).lt j (hmem j hj)
  have hnodup := hknows.nodup
  rw [hdescs, nodup_cons] at hnodup
  simp only [execProc]
  rw [if_neg (Nat.not_le.mpr (hlt i mem_cons_self)),
    if_neg (by simp [hinv.not_free rfl (hmem i mem_cons_self)])]
  refine ⟨⟨true, buf, stage'⟩, ?_, rfl⟩
  refine hinv.keep hown rfl rfl rfl (fun _ _ => rfl) rfl rfl
    ⟨hinv.rings.avail, hinv.rings.used, hinv.rings.usedIdx, hinv.rings.accounts,
      hinv.rings.heads, hinv.rings.finished, hinv.rings.buffers⟩ ?_ (fun _ _ => rfl)
    (fun _ _ => rfl) (by rw [hdescs']; exact hnodup.2) ?_ (hstage s hknows.stage)
    (by simp [hnone s hknows.stage]) ?_ ?_ ?_
  · intro j hj
    refine update_of_ne ?_ ..
    rintro rfl
    exact hj (by rw [hdescs]; exact mem_cons_self)
  · intro j hj
    rw [hdescs'] at hj
    exact hlt j (mem_cons_of_mem i hj)
  · intro j _ hj _
    refine update_of_ne ?_ ..
    rintro rfl
    exact hj (by rw [hdescs]; exact mem_cons_self)
  · intro j hj hnot
    rw [hdescs] at hj
    rw [hdescs'] at hnot
    obtain rfl : j = i := (mem_cons.mp hj).resolve_right hnot
    exact update_self ..
  · intro j hj
    rw [hdescs'] at hj
    have hne : j ≠ i := ne_of_mem_of_not_mem hj hnodup.1
    refine ⟨?_, .inl (by rw [hdescs]; exact mem_cons_of_mem i hj)⟩
    exact (update_of_ne hne ..).trans (hinv.not_free rfl (hmem j (mem_cons_of_mem i hj)))

/-- `free_desc`, when not all three descriptors could be allocated. -/
theorem triple_freeDesc_undo :
    Moves (.proc p) ⟨true, buf, .ofList (i :: l)⟩ (.perform (.freeDesc i)) ⟨true, buf, .ofList l⟩ :=
  triple_freeDesc rfl (Stage.descs_ofList l) (fun _ h => h) fun _ h => stageOk_ofList.mpr h

theorem triple_freeDesc_chain :
    Moves (.proc p) ⟨true, buf, .freeing (i :: l)⟩ (.perform (.freeDesc i))
      ⟨true, buf, .freed i l⟩ := by
  refine triple_freeDesc rfl rfl (fun _ h => h.1) fun s h => ?_
  -- the flags and links of the freed descriptor are still there
  have hflags : ∀ j, ((s.freeDesc i).desc j).flags = (s.desc j).flags := by
    intro j
    by_cases hj : j = i
    · subst hj
      simp [State.freeDesc]
    · simp [State.freeDesc, hj]
  have hnext : ∀ j, ((s.freeDesc i).desc j).next = (s.desc j).next := by
    intro j
    by_cases hj : j = i
    · subst hj
      simp [State.freeDesc]
    · simp [State.freeDesc, hj]
  exact ⟨h.1, h.2.1.keep (hflags i) (hnext i), h.2.2.keep (fun j _ => hflags j) fun j _ => hnext j⟩

/-- What a process knows when it has looked where the chain goes on. -/
def Goes (buf : Option Buf) (l : List Nat) (own : Own Buf) : Option Nat → Prop
  | none => l = [] ∧ own = ⟨true, buf, .none⟩
  | some j => ∃ rest, l = j :: rest ∧ own = ⟨true, buf, .freeing (j :: rest)⟩

theorem triple_nextDesc : Triple (.proc p) ⟨true, buf, .freed i l⟩ (.perform (.nextDesc i))
      fun result own' => Goes buf l own' result := by
  refine triple_step fun s g hinv hown hknows => ?_
  obtain ⟨hnone, hlink, hlinks⟩ := hknows.stage
  have hkeep : ∀ stage : Stage Buf, stage.descs = l → StageOk s p buf stage →
      Inv s (update g (.proc p) ⟨true, buf, stage⟩) := fun stage hdescs hstage =>
    hinv.learn hown rfl hdescs hstage (by simp [hnone])
  simp only [execProc]
  cases l with
  | nil =>
    have hlast : (s.desc i).flags &&& VRING_DESC_F_NEXT = 0 := hlink
    rw [if_neg (fun hne => hne hlast)]
    exact ⟨_, hkeep .none rfl hnone, rfl, rfl⟩
  | cons j l =>
    rw [if_pos hlink.1, hlink.2]
    exact ⟨_, hkeep (.freeing (j :: l)) rfl ⟨hnone, hlinks⟩, l, rfl, rfl⟩

/-! ### Putting a request together -/

/-- The step writes to the descriptors and the buffer of the draft only. -/
structure Edits (d : Draft Buf) (s s' : State Pid Buf) : Prop where
  lock : s'.lock = s.lock
  bufLock : s'.bufLock = s.bufLock
  request : s'.request = s.request
  cleared : s'.cleared = s.cleared
  requests : s'.requests = s.requests
  free : s'.free = s.free
  desc : ∀ i, i ∉ [d.head, d.data, d.status] → s'.desc i = s.desc i
  info : ∀ i, i ∉ [d.head, d.data, d.status] → (s'.info i).b = (s.info i).b
  disk : ∀ b, d.b ≠ b → s'.disk b = s.disk b

theorem triple_edit
    (hstep : ∀ s : State Pid Buf, s.requests.length < s.taken.length + NUM → RingsOk s →
      [d.head, d.data, d.status].Nodup → Formatted s d k →
      (execProc p o s).Ensures (fun _ => False) fun _ s' =>
        Edits d s s' ∧ RingsOk s' ∧ Formatted s' d k') :
    Moves (.proc p) ⟨true, some d.b, .formatting d k⟩ (.perform o)
      ⟨true, some d.b, .formatting d k'⟩ := by
  refine triple_step fun s g hinv hown hknows => ?_
  obtain ⟨hnone, -, hformatted⟩ := hknows.stage
  have hensures := hstep s hinv.avail_room hinv.rings hknows.nodup hformatted
  cases hexec : execProc p o s with
  | blocked => trivial
  | panic message =>
    rw [hexec] at hensures
    exact hensures.elim
  | done result s' =>
    rw [hexec] at hensures
    obtain ⟨hedits, hrings, hformatted'⟩ := hensures
    refine ⟨⟨true, some d.b, .formatting d k'⟩, ?_, rfl⟩
    refine hinv.keep hown rfl hedits.lock hedits.bufLock (fun _ _ => by rw [hedits.request])
      hedits.cleared hedits.requests hrings hedits.desc hedits.info ?_ hknows.nodup hknows.lt
      ⟨?_, rfl, hformatted'⟩ (by simp [hnone]) ?_ ?_ ?_
    · exact fun b hb => hedits.disk b fun heq => hb (by rw [heq])
    · rwa [hedits.request]
    · exact fun _ _ _ _ => by rw [hedits.free]
    · exact fun _ hj hnot => absurd hj hnot
    · intro j hj
      rw [hedits.free]
      exact ⟨hinv.not_free hown hj, .inl hj⟩

theorem triple_setDesc {desc : VRingDesc Buf} (hi : i ∈ [d.head, d.data, d.status])
    (hformatted : ∀ s : State Pid Buf, [d.head, d.data, d.status].Nodup → Formatted s d k →
      Formatted { s with desc := update s.desc i desc } d k') :
    Moves (.proc p) ⟨true, some d.b, .formatting d k⟩
      (.perform (.setDesc i desc)) ⟨true, some d.b, .formatting d k'⟩ := by
  refine triple_edit fun s _ hrings hnodup hf =>
    ⟨⟨rfl, rfl, rfl, rfl, rfl, rfl, ?_, ?_, ?_⟩, ?_, ?_⟩
  · intro j hj
    refine update_of_ne ?_ ..
    rintro rfl
    exact hj hi
  · exact fun _ _ => rfl
  · exact fun _ _ => rfl
  · exact hrings.same rfl rfl rfl rfl rfl rfl rfl rfl rfl rfl rfl rfl
  · exact hformatted s hnodup hf

theorem triple_setHeader : Moves (.proc p) ⟨true, some d.b, .formatting d 0⟩
      (.perform (.setDesc d.head (headerDesc d.write d.sector d.data)))
      ⟨true, some d.b, .formatting d 1⟩ := by
  refine triple_setDesc (by simp) fun s _ _ => ?_
  refine ⟨fun _ => update_self .., ?_, ?_, ?_, ?_⟩ <;> intro hk <;> omega

theorem triple_setData : Moves (.proc p) ⟨true, some d.b, .formatting d 1⟩
      (.perform (.setDesc d.data (dataDesc d.b d.write d.status)))
      ⟨true, some d.b, .formatting d 2⟩ := by
  refine triple_setDesc (by simp) fun s hnodup hf => ?_
  have hne : d.head ≠ d.data := by
    intro heq
    simp [heq] at hnodup
  refine ⟨fun _ => ?_, fun _ => update_self .., ?_, ?_, ?_⟩
  · exact (update_of_ne hne ..).trans (hf.header (by omega))
  all_goals intro hk; omega

theorem triple_clearStatus : Moves (.proc p) ⟨true, some d.b, .formatting d 2⟩
      (.perform (.clearStatus d.head)) ⟨true, some d.b, .formatting d 2⟩ := by
  refine triple_edit fun s _ hrings _ hf => ⟨⟨rfl, rfl, rfl, rfl, rfl, rfl, ?_, ?_, ?_⟩, ?_, ?_⟩
  · exact fun _ _ => rfl
  · intro j hj
    have hne : j ≠ d.head := (ne_of_mem_of_not_mem mem_cons_self hj).symm
    simp [State.poke, hne]
  · exact fun _ _ => rfl
  · exact hrings.same rfl rfl rfl rfl rfl rfl rfl rfl rfl rfl rfl rfl
  · refine ⟨hf.header, hf.data, ?_, ?_, ?_⟩ <;> intro hk <;> omega

theorem triple_setStatus : Moves (.proc p) ⟨true, some d.b, .formatting d 2⟩
      (.perform (.setDesc d.status (statusDesc d.head))) ⟨true, some d.b, .formatting d 3⟩ := by
  refine triple_setDesc (by simp) fun s hnodup hf => ?_
  have hne₁ : d.head ≠ d.status := by
    intro heq
    simp [heq] at hnodup
  have hne₂ : d.data ≠ d.status := by
    intro heq
    simp [heq] at hnodup
  refine ⟨fun _ => ?_, fun _ => ?_, fun _ => update_self .., ?_, ?_⟩
  · exact (update_of_ne hne₁ ..).trans (hf.header (by omega))
  · exact (update_of_ne hne₂ ..).trans (hf.data (by omega))
  all_goals intro hk; omega

theorem triple_setInfo : Moves (.proc p) ⟨true, some d.b, .formatting d 3⟩
      (.perform (.setInfo d.head d.b)) ⟨true, some d.b, .formatting d 4⟩ := by
  refine triple_edit fun s _ hrings _ hf => ⟨⟨rfl, rfl, rfl, rfl, rfl, rfl, ?_, ?_, ?_⟩, ?_, ?_⟩
  · exact fun _ _ => rfl
  · intro j hj
    have hne : j ≠ d.head := (ne_of_mem_of_not_mem mem_cons_self hj).symm
    simp [hne]
  · exact fun b hb => update_of_ne (Ne.symm hb) ..
  · exact hrings.same rfl rfl rfl rfl rfl rfl rfl rfl rfl rfl rfl rfl
  · refine ⟨fun _ => hf.header (by omega), fun _ => hf.data (by omega),
      fun _ => hf.status (by omega), fun _ => ⟨update_self .., by simp⟩, ?_⟩
    intro hk
    omega

theorem triple_setAvail : Moves (.proc p) ⟨true, some d.b, .formatting d 4⟩
      (.perform (.setAvail d.head)) ⟨true, some d.b, .formatting d 5⟩ := by
  refine triple_edit fun s hroom hrings _ hf => ⟨⟨rfl, rfl, rfl, rfl, rfl, rfl, ?_, ?_, ?_⟩, ?_, ?_⟩
  · exact fun _ _ => rfl
  · exact fun _ _ => rfl
  · exact fun _ _ => rfl
  · refine ⟨hrings.avail.store num_dvd ?_ d.head, hrings.used, hrings.usedIdx, hrings.accounts,
      hrings.heads, hrings.finished, hrings.buffers⟩
    rwa [length_map]
  · exact ⟨fun _ => hf.header (by omega), fun _ => hf.data (by omega),
      fun _ => hf.status (by omega), fun _ => hf.info (by omega),
      fun _ => update_self ..⟩

/-- A process with three descriptors begins to put a request together. -/
theorem triple_begin {α : Type} {prog : Code Buf α} {post : α → Own Buf → Prop}
    (h : Triple (.proc p) ⟨true, some d.b, .formatting d 0⟩ prog post) :
    Triple (.proc p) ⟨true, some d.b, .holds [d.head, d.data, d.status]⟩ prog post := by
  intro s g hinv
  let own : Own Buf := ⟨true, some d.b, .holds [d.head, d.data, d.status]⟩
  have hown : update g (.proc p) own (.proc p) = own := update_self ..
  have hknows : Knows s p own := hown ▸ hinv.knows p
  have hnone : s.request p = none := hknows.stage
  have hformatted : Formatted s d 0 := ⟨nofun, nofun, nofun, nofun, nofun⟩
  have hinv' : Inv s (update (update g (.proc p) own) (.proc p)
      ⟨true, some d.b, .formatting d 0⟩) :=
    hinv.learn hown rfl rfl ⟨hnone, rfl, hformatted⟩ (by simp [hnone])
  rw [update_idem] at hinv'
  exact h s g hinv'

theorem triple_bumpAvail : Triple (.proc p) ⟨true, some d.b, .formatting d 5⟩
      (.perform (.bumpAvail d.b d.head d.data d.status))
      fun _ own' => ∃ r, own' = ⟨true, some d.b, .waiting r⟩ ∧ r.b = d.b ∧ r.head = d.head := by
  refine triple_step fun s g hinv hown hknows => ?_
  obtain ⟨hnone, -, hf⟩ := hknows.stage
  let r : Request Buf := ⟨s.requests.length, d.b, d.head, d.data, d.status⟩
  refine ⟨⟨true, some d.b, .waiting r⟩, ?_, r, rfl, rfl, rfl⟩
  obtain ⟨hdisk, hinfo⟩ := hf.info (by omega)
  have hchain : Chain s r := hf.chain hknows.lt
  -- a request that has been cleared was published before
  have hnew : s.requests.length ∉ s.finished := by
    intro hfin
    have hlt := hinv.rings.lt_of_mem (mem_append_right s.before (hinv.rings.finished.subset hfin))
    omega
  refine hinv.local hown rfl ⟨hknows.locked, hknows.buf, hknows.nodup, hknows.lt, ?_, nofun⟩ ?_
    (fun _ _ _ => Iff.rfl) ?_ (fun _ _ => rfl) (fun _ _ => rfl) (fun _ _ => rfl) rfl
    (prefix_append ..) (fun _ _ _ _ => rfl) (fun _ hj hnot => absurd hj hnot) ?_
    (hinv.rings.publish hinv.avail_room (hf.avail (by omega))) ?_
  · refine ⟨update_self .., rfl, ⟨?_, hchain.data, hchain.status⟩, hinfo, ?_, ?_⟩
    · exact hchain.links.keep (fun _ _ => rfl) fun _ _ => rfl
    · show (s.requests ++ [(d.head, d.b)])[s.requests.length]? = some (d.head, d.b)
      exact getElem?_concat_length
    · exact iff_of_true hdisk hnew
  · intro q hq hlock
    exact hq (some.inj (hlock.symm.trans (hknows.locked.mpr rfl)))
  · intro q hq
    exact update_of_ne hq ..
  · intro j hj
    exact ⟨hinv.not_free hown hj, .inl hj⟩
  · intro t ht _
    have hlen : t < s.requests.length + 1 := by
      have ht' : t < (s.requests ++ [(d.head, d.b)]).length := ht
      rwa [length_append, length_singleton] at ht'
    by_cases hlast : t = s.requests.length
    · exact .inl ⟨r, update_self .., hlast.symm⟩
    · refine .inr ⟨by omega, fun r hr => ?_⟩
      rw [hnone] at hr
      cases hr

/-! ### Waiting for the device -/

variable {r : Request Buf}

theorem triple_isBusy : Triple (.proc p) ⟨true, some r.b, .waiting r⟩ (.perform (.isBusy r.b))
      fun busy own' => own' = ⟨true, some r.b, if busy then .waiting r else .done r⟩ := by
  refine triple_step fun s g hinv hown hknows => ⟨_, ?_, rfl⟩
  obtain ⟨hrequest, hbuf, hway⟩ := hknows.stage
  cases hbusy : s.disk r.b with
  | true =>
    rwa [if_pos rfl, ← hown, update_eq_self]
  | false =>
    have hdone : r.number ∈ s.finished := by
      by_contra hnot
      rw [hway.disk.mpr hnot] at hbusy
      cases hbusy
    refine hinv.learn hown rfl rfl ⟨hrequest, hbuf, hway, hdone⟩ ?_
    intro r' hr'
    obtain rfl : r = r' := some.inj (hrequest.symm.trans hr')
    exact hdone

theorem triple_clearInfo : Moves (.proc p) ⟨true, some r.b, .done r⟩ (.perform (.clearInfo r.head))
      ⟨true, some r.b, .freeing r.descs⟩ := by
  refine triple_step fun s g hinv hown hknows => ⟨⟨true, some r.b, .freeing r.descs⟩, ?_, rfl⟩
  obtain ⟨hrequest, -, hway, hdone⟩ := hknows.stage
  refine hinv.keep hown rfl rfl rfl (fun q hq => update_of_ne hq ..) rfl rfl
    (hinv.rings.same rfl rfl rfl rfl rfl rfl rfl rfl rfl rfl rfl rfl) (fun _ _ => rfl) ?_
    (fun _ _ => rfl) hknows.nodup hknows.lt ?_ ?_ (fun _ _ _ _ => rfl)
    (fun _ hj hnot => absurd hj hnot) fun j hj => ⟨hinv.not_free hown hj, .inl hj⟩
  · intro j hj
    have hne : j ≠ r.head := (ne_of_mem_of_not_mem mem_cons_self hj).symm
    simp [hne]
  · exact ⟨update_self .., hway.chain.links.keep (fun _ _ => rfl) fun _ _ => rfl⟩
  · intro r' hr'
    obtain rfl : r = r' := some.inj (hrequest.symm.trans hr')
    exact hdone

end Xv6.Virtio
