import Xv6.Console.System

/-!
# The line discipline of the console

The invariant of the console input: the buffer holds what the reference editor has given out and no
reader has taken yet, followed by the line that is being edited. One lemma says what a key does to
it, one what the loop of `consoleread` does, and `console_line_discipline` collects what holds in
every state of every run.
-/

namespace Xv6.Console

open Interleave List Discipline

theorem INPUT_BUF_dvd : INPUT_BUF ∣ 2 ^ 32 := by decide

theorem INPUT_BUF_lt : INPUT_BUF < 2 ^ 32 := by decide

/-- The buffer against the reference editor. -/
structure Agrees (cons : Cons) (editor : Editor) (consumed : List UInt8) : Prop where
  ring : Ring.Represents cons.buf cons.r cons.e (editor.committed ++ editor.line) consumed
  w_eq : cons.w = BitVec.ofNat 32 editor.committed.length
  isPrefix : consumed <+: editor.committed
  /-- A newline ends the line that is being edited. -/
  unended : newline ∉ editor.line

/-- The invariant. -/
structure Inv (s : State) : Prop where
  agrees : Agrees s.cons s.editor s.consumed
  handed : s.handed = s.consumed.filter (· ≠ C 'D')

namespace Agrees

variable {cons : Cons} {editor : Editor} {consumed : List UInt8}

section

variable (h : Agrees cons editor consumed)
include h

theorem e_eq : cons.e = BitVec.ofNat 32 (editor.committed.length + editor.line.length) := by
  rw [h.ring.put_eq, length_append]

theorem length_le : consumed.length ≤ editor.committed.length := h.isPrefix.length_le

theorem room_le : editor.committed.length + editor.line.length ≤ consumed.length + INPUT_BUF := by
  have hroom := h.ring.room
  rwa [length_append] at hroom

theorem toNat_e_sub_w : (cons.e - cons.w).toNat = editor.line.length := by
  have hroom := h.room_le
  have hle := h.length_le
  have hlt := INPUT_BUF_lt
  rw [h.e_eq, h.w_eq, Ring.toNat_ofNat_sub (by omega) (by omega)]
  omega

theorem toNat_w_sub_r : (cons.w - cons.r).toNat = editor.committed.length - consumed.length := by
  have hroom := h.room_le
  have hlt := INPUT_BUF_lt
  rw [h.w_eq, h.ring.taken_eq]
  exact Ring.toNat_ofNat_sub h.length_le (by omega)

theorem toNat_e_sub_r : (cons.e - cons.r).toNat =
      editor.committed.length + editor.line.length - consumed.length := by
  rw [h.ring.toNat_sub INPUT_BUF_lt, length_append]

/-- The test `cons.e != cons.w`. -/
theorem e_eq_w_iff : cons.e = cons.w ↔ editor.line = [] := by
  have hcount := h.toNat_e_sub_w
  constructor
  · intro heq
    rw [heq, BitVec.sub_self] at hcount
    exact eq_nil_of_length_eq_zero hcount.symm
  · intro hnil
    rw [h.e_eq, h.w_eq, hnil, length_nil, add_zero]

/-- The test `cons.r == cons.w`. -/
theorem r_eq_w_iff : cons.r = cons.w ↔ editor.committed.length = consumed.length := by
  have hroom := h.room_le
  have hlt := INPUT_BUF_lt
  rw [h.w_eq, h.ring.taken_eq, Ring.ofNat_inj_of_lt h.length_le (by omega)]
  exact eq_comm

/-- Readers may take what the editor has given out and no reader has taken. -/
theorem pending_eq : cons.pending = editor.committed.drop consumed.length := by
  have hle := h.length_le
  have hsegment := h.ring.segment_eq INPUT_BUF_dvd INPUT_BUF_lt le_rfl hle
    (by rw [length_append]; omega)
  rw [← h.w_eq, ← h.ring.taken_eq] at hsegment
  rw [Cons.pending, hsegment, drop_append_of_le_length hle, take_append_of_le_length
    (by rw [length_drop]), take_of_length_le (by rw [length_drop])]

/-- What was taken, followed by what may be taken, is what the editor has given out. -/
theorem consumed_append_pending : consumed ++ cons.pending = editor.committed := by
  obtain ⟨rest, hrest⟩ := h.isPrefix
  rw [h.pending_eq, ← hrest, drop_left]

/-- The bytes that may be edited are those of the editor's line. -/
theorem editing_eq : cons.editing = editor.line := by
  have hsegment := h.ring.segment_eq INPUT_BUF_dvd INPUT_BUF_lt h.length_le
    (show _ ≤ editor.committed.length + editor.line.length by omega)
    (by rw [length_append])
  rw [← h.w_eq, ← h.e_eq] at hsegment
  rw [Cons.editing, hsegment, drop_left, Nat.add_sub_cancel_left, take_length]

end

/-! ### Keys -/

variable {committed line : List UInt8}

theorem erase {x : UInt8} (h : Agrees cons ⟨committed, line ++ [x]⟩ consumed) :
    Agrees { cons with e := cons.e - 1 } ⟨committed, line⟩ consumed where
  ring := by
    have hring := h.ring
    rw [← append_assoc] at hring
    exact hring.unpush (h.isPrefix.trans (prefix_append _ _))
  w_eq := h.w_eq
  isPrefix := h.isPrefix
  unended := fun hmem => h.unended (mem_append_left _ hmem)

theorem buf_last {x : UInt8} (h : Agrees cons ⟨committed, line ++ [x]⟩ consumed) :
    cons.buf (Ring.slot INPUT_BUF (cons.e - 1)) = x := by
  have hring := h.ring
  have hle := h.length_le
  rw [← append_assoc] at hring
  refine hring.data_last INPUT_BUF_dvd ?_
  rw [length_append]
  omega

/-- The loop of control-U ends at `w`, by induction on the line from its end. -/
theorem killLineFrom (h : Agrees cons ⟨committed, line⟩ consumed) :
    Agrees (cons.killLineFrom line.length) ⟨committed, []⟩ consumed := by
  induction line using List.reverseRecOn generalizing cons with
  | nil => exact h
  | append_singleton line x ih =>
    have hne : cons.e ≠ cons.w := fun heq => by simpa using h.e_eq_w_iff.mp heq
    have hx : cons.buf (Ring.slot INPUT_BUF (cons.e - 1)) ≠ newline := by
      rw [h.buf_last]
      intro hx
      exact h.unended (by simp [hx])
    rw [length_append, length_singleton, Cons.killLineFrom, if_pos ⟨hne, hx⟩]
    exact ih h.erase

section

variable (h : Agrees cons editor consumed)
include h

theorem killLine : Agrees cons.killLine { editor with line := [] } consumed := by
  rw [Cons.killLine, h.toNat_e_sub_w]
  exact h.killLineFrom

theorem backspace :
    Agrees cons.backspace { editor with line := editor.line.dropLast } consumed := by
  unfold Cons.backspace
  obtain ⟨committed, line⟩ := editor
  cases line using List.reverseRecOn with
  | nil =>
    rwa [if_neg (by simpa using h.e_eq_w_iff.mpr rfl)]
  | append_singleton line x =>
    have hne : cons.e ≠ cons.w := fun heq => by simpa using h.e_eq_w_iff.mp heq
    rw [if_pos hne, dropLast_concat]
    exact h.erase

/-- Storing a byte at the end of the line, before the test whether the line is complete. -/
theorem store (hroom : editor.committed.length + editor.line.length < consumed.length + INPUT_BUF)
    (c : UInt8) : Ring.Represents (cons.store c).buf cons.r (cons.store c).e
      (editor.committed ++ (editor.line ++ [c])) consumed := by
  have hring := h.ring.push INPUT_BUF_dvd (by rw [length_append]; exact hroom) c
  rwa [append_assoc] at hring

theorem input {c : UInt8} {room : Nat}
    (hroom : room = INPUT_BUF - (editor.committed.length + editor.line.length - consumed.length)) :
    Agrees (cons.input c) (if c = 0 ∨ room = 0 then editor
        else if toNewline c = newline ∨ toNewline c = C 'D' ∨ room = 1 then
          ⟨editor.committed ++ editor.line ++ [toNewline c], []⟩
        else { editor with line := editor.line ++ [toNewline c] }) consumed := by
  have hle := h.length_le
  have hcount := h.toNat_e_sub_r
  unfold Cons.input
  by_cases hdrop : c = 0 ∨ room = 0
  · rw [if_pos hdrop, if_neg]
    · exact h
    · rw [hcount]
      rcases hdrop with hzero | hfull
      · exact fun hkeep => hkeep.1 hzero
      · omega
  · rw [not_or] at hdrop
    rw [if_neg (not_or.mpr hdrop), if_pos ⟨hdrop.1, by omega⟩]
    have hstore := h.store (by omega) (toNewline c)
    have hfull : (cons.store (toNewline c)).e = cons.r + BitVec.ofNat 32 INPUT_BUF ↔ room = 1 := by
      rw [hstore.full_iff INPUT_BUF_lt]
      simp only [length_append, length_singleton]
      omega
    unfold Cons.commit
    by_cases hdone : toNewline c = newline ∨ toNewline c = C 'D' ∨ room = 1
    · rw [if_pos hdone, if_pos (by rwa [← hfull] at hdone)]
      rw [← append_assoc] at hstore
      have hlonger : consumed <+: editor.committed ++ editor.line ++ [toNewline c] := by
        rw [append_assoc]
        exact h.isPrefix.trans (prefix_append _ _)
      exact ⟨by rw [append_nil]; exact hstore, hstore.put_eq, hlonger, not_mem_nil⟩
    · rw [if_neg hdone, if_neg (by rwa [← hfull] at hdone)]
      rw [not_or] at hdone
      refine ⟨hstore, h.w_eq, h.isPrefix, ?_⟩
      intro hmem
      rcases mem_append.mp hmem with hold | hnew
      · exact h.unended hold
      · exact hdone.1 (mem_singleton.mp hnew).symm

end

end Agrees

variable {s : State}

theorem Inv.intr (h : Inv s) (c : UInt8) : Inv (s.intr c) where
  agrees := by
    simp only [State.intr, Cons.consoleintr, Editor.key]
    by_cases hP : c = C 'P'
    · rw [if_pos hP, if_pos hP]
      exact h.agrees
    rw [if_neg hP, if_neg hP]
    by_cases hU : c = C 'U'
    · rw [if_pos hU, if_pos hU]
      exact h.agrees.killLine
    rw [if_neg hU, if_neg hU]
    by_cases hH : c = C 'H' ∨ c = 0x7f
    · rw [if_pos hH, if_pos hH]
      exact h.agrees.backspace
    rw [if_neg hH, if_neg hH]
    exact h.agrees.input rfl
  handed := h.handed

theorem Editor.committed_key (editor : Editor) (room : Nat) (c : UInt8) :
    editor.committed <+: (editor.key room c).committed := by
  unfold Editor.key
  split_ifs
  · exact prefix_rfl
  · exact prefix_rfl
  · exact prefix_rfl
  · exact prefix_rfl
  · show editor.committed <+: editor.committed ++ editor.line ++ [toNewline c]
    rw [append_assoc]
    exact prefix_append _ _
  · exact prefix_rfl

/-! ### Reads -/

theorem State.untake_take (s : State) : s.take.untake = s := by
  simp [State.take, State.untake]

section

variable (h : Inv s) (hne : s.cons.r ≠ s.cons.w)
include h hne

theorem Inv.pending_cons : s.cons.pending = s.next :: s.take.cons.pending ∧
      Agrees s.take.cons s.editor s.take.consumed := by
  have hle := h.agrees.length_le
  have hlen : s.consumed.length < s.editor.committed.length := by
    have := mt h.agrees.r_eq_w_iff.mpr hne
    omega
  have hinput : s.consumed.length < (s.editor.committed ++ s.editor.line).length := by
    rw [length_append]
    omega
  have hnext : s.next = s.editor.committed[s.consumed.length] := by
    rw [State.next, h.agrees.ring.data_taken INPUT_BUF_dvd hinput, getElem_append_left hlen]
  have htake : Agrees s.take.cons s.editor s.take.consumed := by
    refine ⟨h.agrees.ring.pop INPUT_BUF_dvd hinput, h.agrees.w_eq, ?_, h.agrees.unended⟩
    obtain ⟨rest, hrest⟩ := h.agrees.isPrefix
    have hsucc : s.take.consumed = s.editor.committed.take (s.consumed.length + 1) := by
      rw [take_succ_eq_append_getElem hlen, ← hnext, ← hrest, take_left]
      rfl
    rw [hsucc]
    exact List.take_prefix _ _
  refine ⟨?_, htake⟩
  rw [h.agrees.pending_eq, htake.pending_eq, drop_eq_getElem_cons hlen, ← hnext]
  simp [State.take]

theorem Inv.take (heof : s.next = C 'D') : Inv s.take where
  agrees := (h.pending_cons hne).2
  handed := by
    show s.handed = (s.consumed ++ [s.next]).filter _
    rw [filter_append, h.handed, heof]
    simp

theorem Inv.takeHand (hbyte : s.next ≠ C 'D') : Inv (s.take.hand s.next) where
  agrees := (h.pending_cons hne).2
  handed := by
    show s.handed ++ [s.next] = (s.consumed ++ [s.next]).filter _
    rw [filter_append, h.handed]
    simp [hbyte]

end

/-- What a reader has got while it goes on. -/
structure Going (target left : Nat) (got : List UInt8) : Prop where
  count : got.length + left = target
  noEof : C 'D' ∉ got
  noNewline : newline ∉ got

/-- What a read has got when it ends: `n` bytes, or a line up to its newline, or the bytes before a
control-D, which stays in the buffer if there are any. -/
structure Ended (target left : Nat) (got : List UInt8) (why : Stop) (s : State) : Prop where
  count : got.length + left = target
  noEof : C 'D' ∉ got
  noNewline : newline ∉ got.dropLast
  reason :
    match why with
    | .count => left = 0
    | .newline => got.getLast? = some newline
    | .eof => 0 < left ∧ newline ∉ got ∧ (got ≠ [] → s.cons.pending.head? = some (C 'D'))
    | .fault => False
    | .killed => True

/-- How a turn of `consoleread` ends. -/
def Turn.Ok (target : Nat) (s : State) : Turn → Prop
  | .sleep left got => 0 < left ∧ Going target left got
  | .stop left got why => Ended target left got why s

variable {got : List UInt8} {target left : Nat}

theorem Going.snoc {c : UInt8}
    (h : Going target (left + 1) got) (heof : c ≠ C 'D') (hline : c ≠ newline) :
    Going target left (got ++ [c]) where
  count := by
    have := h.count
    rw [length_append, length_singleton]
    omega
  noEof := by simp [h.noEof, heof.symm]
  noNewline := by simp [h.noNewline, hline.symm]

theorem Going.ended {why : Stop} (h : Going target left got) (hreason :
      match why with
      | .count => left = 0
      | .newline => got.getLast? = some newline
      | .eof => 0 < left ∧ newline ∉ got ∧ (got ≠ [] → s.cons.pending.head? = some (C 'D'))
      | .fault => False
      | .killed => True) : Ended target left got why s :=
  ⟨h.count, h.noEof, fun hmem => h.noNewline (mem_of_mem_dropLast hmem), hreason⟩

theorem readLoop_editor (killed : Bool) (target mapped left : Nat) (got : List UInt8) (s : State) :
    (readLoop killed target mapped left got s).2.editor = s.editor := by
  induction left generalizing got s with
  | zero => rfl
  | succ left ih =>
    unfold readLoop
    split_ifs
    · rfl
    · rfl
    · rfl
    · rfl
    · rfl
    · rfl
    · exact ih _ _

/-- The loop of `consoleread` when all copies succeed, by induction on the bytes wanted. -/
theorem Inv.readLoop {killed : Bool} {target mapped left : Nat} (h : Inv s)
    (hmapped : target ≤ mapped) (hgoing : Going target left got) :
    Inv (readLoop killed target mapped left got s).2 ∧
      (Console.readLoop killed target mapped left got s).1.Ok target
        (Console.readLoop killed target mapped left got s).2 := by
  induction left generalizing got s with
  | zero => exact ⟨h, hgoing.ended rfl⟩
  | succ left ih =>
    have hcount := hgoing.count
    unfold Console.readLoop
    by_cases hempty : s.cons.r = s.cons.w
    · rw [if_pos hempty]
      cases killed with
      | true => exact ⟨h, hgoing.ended trivial⟩
      | false => exact ⟨h, Nat.succ_pos left, hgoing⟩
    rw [if_neg hempty]
    by_cases heof : s.next = C 'D'
    · rw [if_pos heof]
      by_cases hsome : left + 1 < target
      · rw [if_pos hsome, State.untake_take]
        refine ⟨h, hgoing.ended ⟨Nat.succ_pos left, hgoing.noNewline, fun _ => ?_⟩⟩
        rw [(h.pending_cons hempty).1, heof]
        rfl
      · rw [if_neg hsome]
        have hnil : got = [] := eq_nil_of_length_eq_zero (by omega)
        exact ⟨h.take hempty heof,
          hgoing.ended ⟨Nat.succ_pos left, hgoing.noNewline, fun hne => absurd hnil hne⟩⟩
    rw [if_neg heof, if_neg (by omega)]
    have hnext := h.takeHand hempty heof
    by_cases hline : s.next = newline
    · rw [if_pos hline]
      refine ⟨hnext, ?_, ?_, ?_, ?_⟩
      · rw [length_append, length_singleton]
        omega
      · simp [hgoing.noEof, Ne.symm heof]
      · rw [dropLast_concat]
        exact hgoing.noNewline
      · simp [hline]
    · rw [if_neg hline]
      exact ih hnext (hgoing.snoc heof hline)

/-- A read that finds a control-D first returns no bytes, and takes the control-D. -/
theorem Inv.readLoop_eof (h : Inv s) (heof : s.cons.pending.head? = some (C 'D')) (killed : Bool)
    {target : Nat} (mapped : Nat) (htarget : 0 < target) :
    Console.readLoop killed target mapped target [] s = (.stop target [] .eof, s.take) := by
  obtain ⟨left, rfl⟩ := Nat.exists_eq_add_of_lt htarget
  have hne : s.cons.r ≠ s.cons.w := by
    intro heq
    rw [h.agrees.pending_eq, ← h.agrees.r_eq_w_iff.mp heq, drop_length] at heof
    cases heof
  rw [(h.pending_cons hne).1, head?_cons] at heof
  rw [zero_add, Console.readLoop, if_neg hne, if_pos (Option.some.inj heof), if_neg (lt_irrefl _)]

/-! ### Every run -/

/-- A read that has returned got all the bytes it asked for, or a line, or the bytes before a
control-D; only a read that was killed returns `-1`. -/
structure Returned.Ok (read : Returned) : Prop where
  noEof : C 'D' ∉ read.got
  noNewline : newline ∉ read.got.dropLast
  result : read.why ≠ .killed → read.result = read.got.length
  reason :
    match read.why with
    | .count => read.got.length = read.n.toNat
    | .newline => read.got.getLast? = some newline
    | .eof => read.got.length < read.n.toNat ∧ newline ∉ read.got
    | .fault => False
    | .killed => read.result = -1

/-- What is known about a process at rest. -/
def Label.Ok : Label → Prop
  | .user none => True
  | .user (some read) => read.Ok
  | .reading n _ left got => Going n.toNat left got

theorem Turn.Ok.label {n : Int} {mapped : Nat} {turn : Turn} (h : turn.Ok n.toNat s) :
    (turn.label n mapped).Ok := by
  cases turn with
  | sleep left got => exact h.2
  | stop left got why =>
    have hcount := h.count
    have hreason := h.reason
    refine ⟨h.noEof, h.noNewline, ?_, ?_⟩
    · intro hwhy
      dsimp only
      rw [if_neg hwhy]
      omega
    · cases why with
      | count =>
        dsimp only at hreason ⊢
        omega
      | newline => exact hreason
      | eof => exact ⟨by dsimp only at hreason ⊢; omega, hreason.2.1⟩
      | fault => exact hreason
      | killed => rfl

variable {Pid : Type} [DecidableEq Pid]

/-- How the readers and the interrupt handler share the console. -/
def discipline (Pid : Type) : Discipline (machine Pid) Unit where
  inv := fun s _ => Inv s
  needs := fun _ o _ =>
    match o with
    | .intr _ => True
    | .read n _ left got => Going n.toNat left got
  idle := fun _ label _ => label.Ok
  allowed := fun _ => False
  guard := fun _ o _ => copiesSucceed o = true

/-- `consoleread` from the head of its loop on. -/
theorem triple_consoleread {p : Pid} {n : Int} {mapped left : Nat}
    (hgoing : Going n.toNat left got) :
    (discipline Pid).Triple p () (consoleread n mapped left got) fun label _ => label.Ok := by
  have hread : (discipline Pid).Triple p () (Prog.perform (Op.read n mapped left got))
      fun (turn : Turn) _ => ∃ s, turn.Ok n.toNat s := by
    refine .perform rfl hgoing ?_
    intro s g killed hinv _ hguard
    have hmapped : n ≤ mapped := of_decide_eq_true hguard
    obtain ⟨hinv', hturn⟩ := Inv.readLoop hinv (show n.toNat ≤ mapped by omega) hgoing
    exact ⟨(), hinv', _, hturn⟩
  exact hread.bind fun turn _ ⟨s, hturn⟩ => .ret hturn.label

theorem codeSafe (Pid : Type) [DecidableEq Pid] : (discipline Pid).CodeSafe := by
  refine codeSafe_of_calls ?_
  intro p label own what hidle
  cases label with
  | user last =>
    cases what with
    | intr c =>
      refine .made ?_
      have hintr : (discipline Pid).Moves p own (Prog.perform (Op.intr c)) own := by
        refine .perform rfl trivial ?_
        intro s g killed hinv _ _
        exact Inv.intr hinv c
      exact hintr.seq (.ret hidle)
    | read n mapped => exact .made (triple_consoleread ⟨zero_add _, not_mem_nil, not_mem_nil⟩)
    | goOn => exact .refused
  | reading n mapped left got =>
    cases what with
    | goOn => exact .made (triple_consoleread hidle)
    | intr _ | read _ _ => exact .refused

variable {config config' : Config Pid Op Res State Label}

/-- The schedules whose copies to readers all succeed. -/
def Copies (config : Config Pid Op Res State Label) (event : Event Pid Call Bool) : Prop :=
  Machine.atStep (fun _ o _ => copiesSucceed o) config event = true

theorem holds_of_booted {buf : Fin INPUT_BUF → UInt8}
    (h : (machine Pid).Run Copies (booted buf) config) : (discipline Pid).Holds config := by
  have hinv : Inv (booted buf : Config Pid Op Res State Label).state :=
    ⟨⟨.nil buf, rfl, nil_prefix, not_mem_nil⟩, rfl⟩
  have hstart : (discipline Pid).Holds (booted buf) :=
    ⟨⟨fun _ => (), hinv, fun _ => trivial⟩, nofun⟩
  exact holds_of_run (codeSafe Pid) hstart
    (h.mono fun c e hmeets => meets_of_atStep (fun _ _ _ hcond => hcond) hmeets)

theorem committed_next (hholds : (discipline Pid).Holds config) {event : Event Pid Call Bool}
    (hnext : (machine Pid).next config event = some config') :
    config.state.editor.committed <+: config'.state.editor.committed := by
  rcases hholds.state_cases (fun _ => rfl) hnext with
    hsame | ⟨pid, o, killed, ghost, result, -, -, hexec⟩
  · rw [hsame]
  · cases o with
    | intr c =>
      have hstate : config.state.intr c = config'.state := by
        injection hexec
      rw [← hstate]
      exact Editor.committed_key _ _ _
    | read n mapped left got =>
      have hstate : (readLoop killed n.toNat mapped left got config.state).2 = config'.state := by
        injection hexec
      rw [← hstate, readLoop_editor]

/-- In every state that keys and readers can bring the console to, as long as copies to readers
succeed: the indices are in order; the bytes that readers have taken, which are those handed to them
and control-Ds, followed by those between `r` and `w`, are what the reference editor has given out,
and no event takes any of them back; the bytes between `w` and `e` are the editor's line; every read
that has returned, and every one that is about to run, ends as `Returned.Ok` and `Turn.Ok` say; and
a read that meets a control-D first returns `0`. -/
theorem console_line_discipline {buf : Fin INPUT_BUF → UInt8}
    (h : (machine Pid).Run Copies (booted buf) config) :
    (config.state.cons.w - config.state.cons.r).toNat ≤
        (config.state.cons.e - config.state.cons.r).toNat ∧
      (config.state.cons.e - config.state.cons.r).toNat ≤ INPUT_BUF ∧
      config.state.consumed ++ config.state.cons.pending = config.state.editor.committed ∧
      config.state.handed = config.state.consumed.filter (· ≠ C 'D') ∧
      config.state.cons.editing = config.state.editor.line ∧
      (∀ event config', Copies config event → (machine Pid).next config event = some config' →
        config.state.consumed ++ config.state.cons.pending <+:
          config'.state.consumed ++ config'.state.cons.pending) ∧
      (∀ p read, config.prog p = .ret (.user (some read)) → read.Ok) ∧
      (∀ p (n : Int) (mapped : Nat) left got rest, n ≤ mapped →
        config.prog p = .op (.read n mapped left got) rest → ∀ killed,
          (readLoop killed n.toNat mapped left got config.state).1.Ok n.toNat
            (readLoop killed n.toNat mapped left got config.state).2) ∧
      (config.state.cons.pending.head? = some (C 'D') → ∀ killed mapped target, 0 < target →
        readLoop killed target mapped target [] config.state =
          (.stop target [] .eof, config.state.take)) := by
  have hholds := holds_of_booted h
  obtain ⟨ghost, hinv, hready⟩ := hholds.state
  have hagrees := Inv.agrees hinv
  have hroom := hagrees.room_le
  refine ⟨?_, ?_, hagrees.consumed_append_pending, Inv.handed hinv, hagrees.editing_eq, ?_, ?_, ?_,
    fun heof killed mapped target htarget => Inv.readLoop_eof hinv heof killed mapped htarget⟩
  · rw [hagrees.toNat_w_sub_r, hagrees.toNat_e_sub_r]
    omega
  · rw [hagrees.toNat_e_sub_r]
    omega
  · intro event config' hcopies hnext
    obtain ⟨ghost', hinv', -⟩ := (holds_of_booted (.step h hcopies hnext)).state
    rw [hagrees.consumed_append_pending, (Inv.agrees hinv').consumed_append_pending]
    exact committed_next hholds hnext
  · intro p read hprog
    have hlabel := hready p
    rwa [hprog] at hlabel
  · intro p n mapped left got rest hmapped hprog killed
    have hneeds := hready p
    rw [hprog] at hneeds
    exact (Inv.readLoop hinv (by omega) hneeds.1).2

/-- Process 1 types a line with a slip of the finger and a control-D while process 0 waits for
three bytes; process 0 gets the line. -/
def typedLine : List (Event (Fin 2) Call Bool) :=
  let type (c : UInt8) : List (Event (Fin 2) Call Bool) := [.call 1 (.intr c) false, .step 1 false]
  [.call 0 (.read 3 3) false, .step 0 false] ++ [0x68, 0x6a, 0x7f, 0x69, 0x0d, 0x04].flatMap type ++
    [.call 0 .goOn false, .step 0 false]

theorem console_line_discipline_typedLine :
    ∃ config, (machine (Fin 2)).Run Copies (booted fun _ => 0) config ∧
      config.state.handed = [0x68, 0x69, 0x0a] ∧ config.state.cons.pending = [0x04] ∧
      config.state.consumed ++ config.state.cons.pending = config.state.editor.committed := by
  have hplay : ((machine (Fin 2)).play (Machine.atStep fun _ o _ => copiesSucceed o) typedLine
      (booted fun _ => 0)).map (fun c => (c.state.handed, c.state.cons.pending)) =
        some ([0x68, 0x69, 0x0a], [0x04]) := by
    decide +kernel
  obtain ⟨config, hrun, hvalue⟩ := Machine.exists_run_of_play hplay
  simp only [Prod.mk.injEq] at hvalue
  exact ⟨config, hrun, hvalue.1, hvalue.2, (console_line_discipline hrun).2.2.1⟩

end Xv6.Console
