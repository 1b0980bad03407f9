import Xv6.Virtio.Ops

/-!
# Completion of requests

The rules for `virtio_disk_intr` and for the device. An interrupt clears the `b->disk` of the
request at which the used ring stands: the device has put the head of its chain there, and that head
belongs to one waiting process only.
-/

namespace Xv6.Virtio

open Interleave Function List Option

variable {Pid Buf : Type} {s s' : State Pid Buf} {g : Agent Pid → Own Buf} {p q : Pid}
  {own : Own Buf} {stage : Stage Buf} {id t : Nat}

/-! ### Clearing `b->disk` -/

/-- The request that the next entry of the used ring belongs to. -/
theorem Inv.next_used (h : Inv s g) (ht : s.completed[s.cleared.length]? = some (id, t)) :
    ∃ q r, s.request q = some r ∧ r.number = t ∧ r.head = id ∧ s.requests[t]? = some (id, r.b) := by
  obtain ⟨hlt, hget⟩ := List.getElem?_eq_some_iff.mp ht
  have hmem : t ∈ (s.completed.map Prod.snd).drop s.cleared.length := by
    have hdrop := List.drop_eq_getElem_cons (l := s.completed.map Prod.snd)
      (i := s.cleared.length) (by rwa [length_map])
    rw [hdrop, getElem_map, hget]
    exact mem_cons_self
  obtain ⟨htlt, htfin⟩ := h.unseen hmem
  obtain ⟨q, r, hr, hnumber⟩ := h.pending t htlt htfin
  obtain ⟨-, -, hway⟩ := (h.knows q).waiting hr
  have hpublished := hway.published
  rw [hnumber] at hpublished
  -- the device has put the head of the chain into the ring
  obtain ⟨b, hb⟩ := h.rings.heads (id, t) (mem_append_right _ (hget ▸ getElem_mem hlt))
  have heq : (r.head, r.b) = (id, b) := some.inj (hpublished.symm.trans hb)
  obtain ⟨hhead, -⟩ := Prod.mk.inj heq
  exact ⟨q, r, hr, hnumber, hhead, hhead ▸ hpublished⟩

/-- The state after an interrupt has dealt with an entry of the used ring. -/
def State.clear [DecidableEq Buf] (s : State Pid Buf) (id t : Nat) (b : Buf) : State Pid Buf :=
  { s with
    disk := update s.disk b false
    usedIdx := BitVec.ofNat 16 ((s.usedIdx.toNat + 1) % NUM)
    cleared := s.cleared ++ [⟨id, t, b⟩] }

theorem RingsOk.clear [DecidableEq Buf] {b : Buf} (h : RingsOk s)
    (ht : s.completed[s.cleared.length]? = some (id, t)) (hb : s.requests[t]? = some (id, b)) :
    RingsOk (s.clear id t b) := by
  obtain ⟨hlt, hget⟩ := List.getElem?_eq_some_iff.mp ht
  have hcount : (s.clear id t b).cleared.length = s.cleared.length + 1 := by
    simp [State.clear]
  refine ⟨h.avail, ?_, ?_, h.accounts, h.heads, ?_, ?_⟩
  · have hsome : (s.cleared.map Clearing.id).length < (s.completed.map Prod.fst).length := by
      rwa [length_map, length_map]
    have hpop := h.used.pop num_dvd hsome
    rw [h.used.data_taken num_dvd hsome] at hpop
    have hid : (s.completed.map Prod.fst)[(s.cleared.map Clearing.id).length] = id := by
      simp [hget]
    rw [hid] at hpop
    have hcounter : BitVec.ofNat 16 s.cleared.length + 1 =
        BitVec.ofNat 16 (s.clear id t b).cleared.length := by
      rw [hcount, BitVec.ofNat_add]
      rfl
    rw [hcounter] at hpop
    simpa [State.clear] using hpop
  · have hidx := h.usedIdx
    have hsmall : (s.usedIdx.toNat + 1) % NUM < 2 ^ 16 :=
      (Nat.mod_lt _ (by decide)).trans (by decide)
    rw [hcount]
    show (BitVec.ofNat 16 ((s.usedIdx.toNat + 1) % NUM)).toNat = _
    rw [BitVec.toNat_ofNat, Nat.mod_eq_of_lt hsmall, hidx, Nat.mod_add_mod]
  · have hnext := concat_get_prefix h.finished (by simpa [State.finished] using hlt)
    have hnumber : (s.completed.map Prod.snd).get ⟨s.finished.length,
        by simpa [State.finished] using hlt⟩ = t := by
      simp [State.finished, hget]
    rw [hnumber] at hnext
    simpa [State.finished, State.clear] using hnext
  · exact forall_mem_append.mpr ⟨h.buffers, forall_mem_singleton.mpr ⟨id, hb⟩⟩

/-- An interrupt clears the `b->disk` of a request that the device has completed. -/
theorem Inv.clear [DecidableEq Pid] [DecidableEq Buf] {r : Request Buf} (h : Inv s g)
    (hown : g (.proc p) = ⟨true, none, .elem id⟩)
    (ht : s.completed[s.cleared.length]? = some (id, t)) (hr : s.request q = some r)
    (hnumber : r.number = t) (hhead : r.head = id) (hb : s.requests[t]? = some (id, r.b)) :
    Inv (s.clear id t r.b) (update g (.proc p) ⟨true, none, .none⟩) := by
  have hknows : Knows s p ⟨true, none, .elem id⟩ := hown ▸ h.knows p
  obtain ⟨hdescs, hbuf, -⟩ := (h.knows q).waiting hr
  have hstage : ∀ q', (update g (.proc p) ⟨true, none, .none⟩ (.proc q')).stage.descs =
      (g (.proc q')).stage.descs := stage_update (by rw [hown]; rfl)
  have hfinished : (s.clear id t r.b).finished = s.finished ++ [t] := by
    simp [State.finished, State.clear]
  refine ⟨?_, ?_, ?_, h.rings.clear ht hb, ?_⟩
  · intro q'
    by_cases hq' : q' = p
    · subst hq'
      rw [update_self]
      exact ⟨hknows.locked, hknows.buf, nodup_nil, by simp [Stage.descs], hknows.stage.1, by simp⟩
    · rw [update_proc_of_ne hq']
      have hnot := h.not_locked (hknows.locked.mpr rfl) hq'
      refine (h.knows q').other hnot Iff.rfl (fun _ => Iff.rfl) rfl fun r' hr' hway => ?_
      have hstage' := (h.knows q').stage
      rw [hr'] at hstage'
      refine hway.keep (fun _ _ => rfl) rfl prefix_rfl ?_
      rw [hfinished]
      by_cases hqq : q' = q
      · -- the process that waits for this request
        subst hqq
        obtain rfl : r' = r := some.inj (hstage'.1.symm.trans hr)
        have hoff : (s.clear id t r'.b).disk r'.b = false := update_self ..
        rw [hoff]
        simp [hnumber]
      · have hbne : r'.b ≠ r.b := by
          intro heq
          have h₁ := ((h.knows q').buf r'.b).mpr hstage'.2.1
          have h₂ := ((h.knows q).buf r.b).mpr hbuf
          rw [heq, h₂] at h₁
          exact hqq (some.inj h₁).symm
        have htne : r'.number ≠ t := by
          intro heq
          have hpublished := hway.published
          rw [heq, hb] at hpublished
          exact hbne (Prod.mk.inj (some.inj hpublished)).2.symm
        have hsame : (s.clear id t r.b).disk r'.b = s.disk r'.b := update_of_ne hbne ..
        rw [hsame, hway.disk]
        simp [htne]
  · intro i hi
    rw [show (s.clear id t r.b).free = s.free from rfl, h.owned i hi]
    exact forall_congr' fun q' => by rw [hstage q']
  · intro q₁ q₂ i h₁ h₂
    rw [hstage q₁] at h₁
    rw [hstage q₂] at h₂
    exact h.apart q₁ q₂ i h₁ h₂
  · intro t' ht' hfin
    rw [hfinished] at hfin
    exact h.pending t' ht' fun hmem => hfin (mem_append_left _ hmem)

/-! ### The rings -/

/-- The device takes the next chain from the avail ring. -/
theorem RingsOk.take (h : RingsOk s) (hmore : s.lastAvail ≠ s.availIdx) : RingsOk { s with
        lastAvail := s.lastAvail + 1
        serving := s.serving ++ [(s.avail (Ring.slot NUM s.lastAvail), s.taken.length)]
        taken := s.taken ++ [s.avail (Ring.slot NUM s.lastAvail)] } := by
  have hlt : s.taken.length < (s.requests.map Prod.fst).length := by
    refine lt_of_le_of_ne h.avail.length_le fun heq => hmore ?_
    exact (h.avail.empty_iff (by decide)).mpr heq
  have hhead := h.avail.data_taken num_dvd hlt
  rw [length_map] at hlt
  refine ⟨h.avail.pop num_dvd (by rwa [length_map]), h.used, h.usedIdx, ?_, ?_, h.finished,
    h.buffers⟩
  · -- the number moves from the avail ring to the chains that are served
    obtain ⟨n, hn⟩ : ∃ n, s.requests.length - s.taken.length = n + 1 :=
      Nat.exists_eq_succ_of_ne_zero (by omega)
    have hn' : s.requests.length - (s.taken.length + 1) = n := by omega
    refine List.Perm.trans ?_ h.accounts
    rw [perm_iff_count]
    intro t
    simp only [State.before, length_append, length_singleton, hn, hn', range'_succ,
      map_append, map_cons, map_nil, count_append, count_cons,
      count_nil]
    omega
  · intro chain hchain
    rcases mem_append.mp hchain with hchain | hchain
    · rcases mem_append.mp hchain with hchain | hchain
      · rcases mem_append.mp hchain with hchain | hchain
        · exact h.heads chain (mem_append_left _ (mem_append_left _ hchain))
        · obtain rfl := mem_singleton.mp hchain
          refine ⟨(s.requests[s.taken.length]).2, ?_⟩
          rw [hhead, getElem_map, getElem?_eq_getElem hlt]
      · exact h.heads chain (mem_append_left _ (mem_append_right _ hchain))
    · exact h.heads chain (mem_append_right _ hchain)

theorem State.poke_eq (s : State Pid Buf) (addr : Addr Buf) (value : BitVec 8) :
    ∃ info, (∀ i, (info i).b = (s.info i).b) ∧ s.poke addr value = { s with info := info } := by
  cases addr with
  | status i =>
    refine ⟨update s.info i { s.info i with status := value }, fun j => ?_, rfl⟩
    by_cases hj : j = i
    · subst hj
      rw [update_self]
    · rw [update_of_ne hj]
  | _ => exact ⟨s.info, fun _ => rfl, rfl⟩

variable {chain : Nat × Nat} {k : Nat}

/-- An element goes from one list to the end of the next. -/
theorem perm_move {α : Type} {xs ys : List α} (hk : k < xs.length) :
    (xs.eraseIdx k ++ (ys ++ [xs[k]])).Perm (xs ++ ys) := by
  rw [← append_assoc]
  exact (perm_append_singleton _ _).trans ((List.getElem_cons_eraseIdx_perm hk).append_right ys)

/-- A chain that goes from one place to the next keeps its number and its head. -/
theorem RingsOk.move (h : RingsOk s) {serving served completed : List (Nat × Nat)}
    (hperm : (serving ++ served ++ completed).Perm (s.serving ++ s.served ++ s.completed)) :
    (({ s with serving, served } : State Pid Buf).before ++ completed.map Prod.snd).Perm
        (List.range s.requests.length) ∧
      ∀ chain ∈ serving ++ served ++ completed, ∃ b, s.requests[chain.2]? = some (chain.1, b) := by
  refine ⟨List.Perm.trans ?_ h.accounts, fun chain hchain => ?_⟩
  · have hnumbers := hperm.map Prod.snd
    simp only [map_append, append_assoc] at hnumbers
    simp only [State.before, append_assoc]
    exact hnumbers.append_left _
  · exact h.heads chain (hperm.mem_iff.mp hchain)

/-- It serves a chain. -/
theorem RingsOk.serve (h : RingsOk s) (hk : s.serving[k]? = some chain) (info : Nat → Info Buf) :
    RingsOk { s with
        info := info, serving := s.serving.eraseIdx k, served := s.served ++ [chain] } := by
  obtain ⟨hlt, rfl⟩ := List.getElem?_eq_some_iff.mp hk
  obtain ⟨haccounts, hheads⟩ := h.move ((perm_move hlt).append_right _)
  exact ⟨h.avail, h.used, h.usedIdx, haccounts, hheads, h.finished, h.buffers⟩

/-- It puts a chain that was served on the used ring. -/
theorem RingsOk.append (h : RingsOk s)
    (hk : s.served[k]? = some chain) (hroom : s.completed.length < s.cleared.length + NUM) :
    RingsOk { s with
        usedElems := update s.usedElems (Ring.slot NUM s.usedId) chain.1
        usedId := s.usedId + 1
        served := s.served.eraseIdx k
        completed := s.completed ++ [chain] } := by
  obtain ⟨hlt, rfl⟩ := List.getElem?_eq_some_iff.mp hk
  have hperm : (s.serving ++ s.served.eraseIdx k ++ (s.completed ++ [s.served[k]])).Perm
      (s.serving ++ s.served ++ s.completed) := by
    rw [append_assoc, append_assoc]
    exact (perm_move hlt).append_left _
  obtain ⟨haccounts, hheads⟩ := h.move hperm
  refine ⟨h.avail, ?_, h.usedIdx, haccounts, hheads, ?_, h.buffers⟩
  · rw [map_append]
    exact h.used.push num_dvd (by rwa [length_map, length_map]) _
  · rw [map_append]
    exact h.finished.trans (prefix_append ..)

variable [DecidableEq Pid] [DecidableEq Buf]

theorem triple_hasUsed :
    (discipline Pid Buf).Triple (.proc p) ⟨true, none, .none⟩ (.perform .hasUsed)
      fun more own' => own' = ⟨true, none, if more then .found else .none⟩ := by
  refine triple_step fun s g hinv hown hknows => ⟨_, ?_, rfl⟩
  have hnone : s.request p = none := hknows.stage
  by_cases hmore : s.usedIdx.toNat % NUM = s.usedId.toNat % NUM
  · simp only [hmore, ne_eq, not_true_eq_false, decide_false, Bool.false_eq_true, if_false]
    rwa [← hown, update_eq_self]
  · simp only [hmore, ne_eq, not_false_eq_true, decide_true, if_true]
    refine hinv.learn hown rfl rfl ⟨hnone, ?_⟩ (by simp [hnone])
    -- otherwise both counters would be the same
    have hle : s.cleared.length ≤ s.completed.length := by
      have := hinv.rings.used.length_le
      rwa [length_map, length_map] at this
    refine lt_of_le_of_ne hle fun heq => hmore ?_
    have hid := hinv.rings.used.put_eq
    rw [length_map, ← heq] at hid
    rw [hinv.rings.usedIdx, hid, BitVec.toNat_ofNat, Nat.mod_mod, Nat.mod_mod_of_dvd _ num_dvd]

theorem triple_usedElem :
    (discipline Pid Buf).Triple (.proc p) ⟨true, none, .found⟩ (.perform .usedElem)
      fun id own' => own' = ⟨true, none, .elem id⟩ := by
  refine triple_step fun s g hinv hown hknows => ⟨_, ?_, rfl⟩
  obtain ⟨hnone, hlt⟩ := hknows.stage
  refine hinv.learn hown rfl rfl ⟨hnone, (s.completed[s.cleared.length]).2, ?_⟩ (by simp [hnone])
  have hslot : Ring.slot NUM s.usedIdx = Fin.ofNat NUM s.cleared.length := by
    apply Fin.ext
    simp [Ring.slot, hinv.rings.usedIdx]
  have hkept := hinv.rings.used.kept s.cleared.length (by rw [length_map]; exact hlt)
    (by rw [length_map])
  rw [hslot, hkept, getElem_map, getElem?_eq_getElem hlt]

theorem triple_status {id : Nat} : Moves (.proc p) own (.perform (.status id)) own :=
  Discipline.Triple.mono (triple_read (fun s => (s.info id).status) (fun _ => rfl) (fun _ => True)
      fun _ _ _ _ => trivial)
    fun _ _ h => h.1

theorem triple_finish :
    (discipline Pid Buf).Moves (.proc p) ⟨true, none, .elem id⟩ (.perform (.finish id))
      ⟨true, none, .none⟩ := by
  refine triple_step fun s g hinv hown hknows => ?_
  obtain ⟨-, t, ht⟩ := hknows.stage
  obtain ⟨q, r, hr, hnumber, hhead, hb⟩ := hinv.next_used ht
  obtain ⟨-, -, hway⟩ := (hinv.knows q).waiting hr
  have hinfo : (s.info id).b = some r.b := hhead ▸ hway.info
  have hexec : execProc p (.finish id) s = .done () (s.clear id t r.b) := by
    simp only [execProc, hinfo, ht, map_some, getD_some, State.clear]
  rw [hexec]
  exact ⟨_, hinv.clear hown ht hr hnumber hhead hb, rfl⟩

/-! ### The device -/

theorem triple_device {o : Op Buf} (hstep : ∀ (s : State Pid Buf) g value, Inv s g →
      (execDevice value o s).Ensures (fun message => message = "virtio_disk_intr status")
        fun _ s' => Inv s' g) :
    (discipline Pid Buf).Triple .device own (.perform o) fun _ _ => True := by
  refine .perform rfl trivial fun s g value hinv _ _ => ?_
  refine (hstep s g value hinv).mono fun _ s' hs' => ⟨g .device, ?_, trivial⟩
  rwa [update_eq_self]

theorem triple_take : (discipline Pid Buf).Triple .device own (.perform .take) fun _ _ => True := by
  refine triple_device fun s g value hinv => ?_
  simp only [execDevice]
  split
  next => trivial
  next hmore =>
    exact hinv.device ⟨rfl, fun _ => rfl, rfl, rfl, rfl, rfl, rfl, rfl, prefix_rfl⟩ rfl rfl rfl
      (hinv.rings.take hmore)

theorem triple_serve :
    (discipline Pid Buf).Triple .device own (.perform (.serve k)) fun _ _ => True := by
  refine triple_device fun s g value hinv => ?_
  simp only [execDevice]
  split
  next chain hk =>
    obtain ⟨info, hinfo, heq⟩ := s.poke_eq (s.desc (s.chainEnd chain.1)).addr value
    rw [heq]
    exact hinv.device ⟨rfl, hinfo, rfl, rfl, rfl, rfl, rfl, rfl, prefix_rfl⟩ rfl rfl rfl
      (hinv.rings.serve hk info)
  next => trivial

theorem triple_append :
    (discipline Pid Buf).Triple .device own (.perform (.append k)) fun _ _ => True := by
  refine triple_device fun s g value hinv => ?_
  simp only [execDevice]
  split
  next chain hk =>
    exact hinv.device ⟨rfl, fun _ => rfl, rfl, rfl, rfl, rfl, rfl, rfl, prefix_append ..⟩
      rfl rfl rfl (hinv.rings.append hk hinv.used_lt)
  next => trivial

end Xv6.Virtio
