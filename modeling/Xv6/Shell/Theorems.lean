import Xv6.Shell.Complete

/-!
# The shell's parser against the grammar

`parsecmd` returns a command exactly for the strings whose tokens are a line of the grammar, and
then the command that the grammar gives, with its words as C strings in the buffer.
-/

namespace Xv6.Shell

open List

/-! ### C strings -/

/-- Writing NUL bytes keeps the length. -/
theorem length_foldl_set (positions : List Nat) (buffer : List Char) :
    (positions.foldl (fun b i => b.set i NUL) buffer).length = buffer.length := by
  induction positions generalizing buffer with
  | nil => rfl
  | cons i positions ih => rw [foldl_cons, ih, length_set]

/-- The buffer after NUL bytes have been written at some positions. -/
theorem getElem?_foldl_set {positions : List Nat} {buffer : List Char} {i : Nat}
    (hi : i < buffer.length) :
    (positions.foldl (fun b i => b.set i NUL) buffer)[i]? =
      if i ∈ positions then some NUL else buffer[i]? := by
  induction positions generalizing buffer with
  | nil => rfl
  | cons j positions ih =>
    rw [foldl_cons, ih (by rwa [length_set])]
    by_cases hmem : i ∈ positions
    · rw [if_pos hmem, if_pos (mem_cons_of_mem j hmem)]
    · rw [if_neg hmem, getElem?_set]
      by_cases hij : j = i
      · subst hij
        rw [if_pos rfl, if_pos hi, if_pos mem_cons_self]
      · rw [if_neg hij, if_neg]
        rintro hin
        rcases mem_cons.mp hin with heq | hin
        · exact hij heq.symm
        · exact hmem hin

/-- A C string ends at its first NUL. -/
theorem takeWhile_of_getElem? {l w : List Char} (hw : NUL ∉ w)
    (hl : ∀ i < w.length, l[i]? = w[i]?) (hnul : l[w.length]? = some NUL) :
    l.takeWhile (· ≠ NUL) = w := by
  induction w generalizing l with
  | nil =>
    cases l with
    | nil => rfl
    | cons c l =>
      obtain rfl : c = NUL := by simpa using hnul
      rfl
  | cons c w ih =>
    have hfirst := hl 0 (Nat.succ_pos _)
    cases l with
    | nil => cases hfirst
    | cons d l =>
      obtain rfl : d = c := by simpa using hfirst
      have hne : d ≠ NUL := fun heq => hw (heq ▸ mem_cons_self)
      rw [takeWhile_cons_of_pos (by simpa using hne)]
      rw [ih (fun hmem => hw (mem_cons_of_mem d hmem))
        (fun i hi => hl (i + 1) (Nat.succ_lt_succ hi)) hnul]

/-- The ends of the words of a command, as positions in the string `s`. -/
def endPositions (s : List Char) (cmd : Cmd Span) : List Nat :=
  cmd.words.map fun span => s.length - span.eq.length

/-- `nulterminate` writes a NUL at the end of every word. -/
theorem nulterminate_eq {s buffer : List Char} (hlength : buffer.length = s.length + 1)
    (cmd : Cmd Span) :
    nulterminate cmd buffer = (endPositions s cmd).foldl (fun b i => b.set i NUL) buffer := by
  have hset : ∀ (buffer : List Char) (p : Ptr), buffer.length = s.length + 1 →
      setNul buffer p = buffer.set (s.length - p.length) NUL := by
    intro buffer p hlength
    rw [setNul, offset, hlength, Nat.add_sub_cancel]
  induction cmd generalizing buffer with
  | exec argv =>
    simp only [nulterminate, endPositions, Cmd.words]
    induction argv generalizing buffer with
    | nil => rfl
    | cons arg argv ih =>
      rw [foldl_cons, map_cons, foldl_cons, hset _ _ hlength]
      exact ih (by rw [length_set, hlength])
  | redir cmd file mode fd ih =>
    rw [nulterminate, ih hlength, hset _ _ (by rw [length_foldl_set, hlength])]
    simp [endPositions, Cmd.words]
  | pipe left right ihl ihr | list left right ihl ihr =>
    rw [nulterminate, ihl hlength, ihr (by rw [length_foldl_set, hlength])]
    simp [endPositions, Cmd.words]
  | back cmd ih => exact ih hlength

variable {s : List Char}

/-- A word splits the string in three. -/
theorem IsWord.exists_front {span : Span} {w : List Char} (h : IsWord s span w) :
    ∃ front, s = front ++ w ++ span.eq := by
  obtain ⟨front, hfront⟩ := h.suffix
  exact ⟨front, by rw [← hfront, h.text, append_assoc]⟩

variable {cmd : Cmd Span}

/-- No NUL is written into a word. -/
theorem not_mem_endPositions {front w back : List Char} {i : Nat}
    (hcmd : Spelled s cmd) (hs : s = front ++ w ++ back) (hw : ∀ x ∈ w, isWordChar x = true)
    (hi : i < w.length) : front.length + i ∉ endPositions s cmd := by
  intro hmem
  obtain ⟨span, hspan, hend⟩ := mem_map.mp hmem
  obtain ⟨w', hw'⟩ := hcmd span hspan
  obtain ⟨front', hfront'⟩ := hw'.exists_front
  -- the character at this position belongs to `w`, but it is the one behind another word
  have hchar : s[front.length + i]? = some w[i] := by
    rw [hs, append_assoc, getElem?_append_right (Nat.le_add_right _ _),
      Nat.add_sub_cancel_left, getElem?_append_left hi, getElem?_eq_getElem hi]
  have hback : s[front.length + i]? = span.eq.head? := by
    have hlength : s.length - span.eq.length = (front' ++ w').length := by
      rw [hfront', length_append, Nat.add_sub_cancel]
    rw [← hend, hlength, hfront', getElem?_append_right le_rfl, Nat.sub_self, head?_eq_getElem?]
  have hnot := hw'.stop w[i] (hback ▸ hchar)
  rw [hw _ (getElem_mem hi)] at hnot
  cases hnot

/-- After `nulterminate` the words of the command are C strings. -/
theorem readCmd_nulterminate (hs : NUL ∉ s)
    (hcmd : Spelled s cmd) : readCmd (nulterminate cmd (s ++ [NUL])) cmd = cmd.texts := by
  have hlength : (s ++ [NUL]).length = s.length + 1 := length_append
  refine Cmd.map_congr fun span hspan => ?_
  obtain ⟨w, hw⟩ := hcmd span hspan
  obtain ⟨front, hfront⟩ := hw.exists_front
  have hsum : s.length = front.length + w.length + span.eq.length := by
    rw [hfront, length_append, length_append]
  have hoffset : offset (nulterminate cmd (s ++ [NUL])) span.q = front.length := by
    rw [offset, nulterminate_eq hlength, length_foldl_set, hlength, hw.text, length_append]
    omega
  rw [cstring, hoffset, hw.text_eq]
  refine takeWhile_of_getElem? (fun hmem => hs ?_) (fun i hi => ?_) ?_
  · rw [hfront]
    exact mem_append_left _ (mem_append_right _ hmem)
  · have hnot := not_mem_endPositions hcmd hfront hw.chars hi
    rw [getElem?_drop, nulterminate_eq hlength, getElem?_foldl_set (by omega), if_neg hnot,
      getElem?_append_left (by omega), hfront, append_assoc,
      getElem?_append_right (Nat.le_add_right _ _), Nat.add_sub_cancel_left,
      getElem?_append_left hi]
  · have hmem : front.length + w.length ∈ endPositions s cmd := by
      refine mem_map.mpr ⟨span, hspan, ?_⟩
      omega
    rw [getElem?_drop, nulterminate_eq hlength, getElem?_foldl_set (by omega), if_pos hmem]

/-! ### `parsecmd` -/

variable {ts : List Token}

/-- A string has at most as many tokens as characters. -/
theorem Lexes.length_le (h : Lexes s ts) : ts.length ≤ s.length := by
  induction h with
  | nil => rfl
  | blank | single | greater | append => simp only [length_cons]; omega
  | word => simp only [length_cons, length_append]; omega

variable {fuel : Nat}

/-- `parsecmd` in terms of `parseline`, at the end of the string. -/
theorem parsecmd_done {s s' : List Char}
    (hline : parseline fuel s = .done (cmd, s')) (hlex : Lexes s' []) :
    parsecmd fuel s = .done (cmd, nulterminate cmd (s ++ [NUL])) := by
  have hnil : (peek [] s').2 = [] := by
    rcases scan_spec hlex.skip (fun c => head_skip s') with ⟨-, hq⟩ | ⟨t, us, eq, heq, -⟩
    · exact hq
    · cases heq
  simp only [parsecmd, hline, Outcome.done_bind, hnil]
  rfl

/-- `parsecmd` accepts every line and returns its command. -/
theorem parsecmd_of_line {t : Tree} (hs : NUL ∉ s)
    (hlex : Lexes s ts) (hline : Line ts t) (hfuel : 4 * s.length + 4 ≤ fuel) :
    ∃ cmd buffer, parsecmd fuel s = .done (cmd, buffer) ∧ readCmd buffer cmd = t := by
  have hle := hlex.length_le
  have hlex' : Lexes s (ts ++ []) := by rwa [append_nil]
  have hbound : 4 * (ts ++ []).length + 4 ≤ fuel := by
    rw [append_nil]
    omega
  obtain ⟨cmd, s', hcall, hrest, ht⟩ := parseline_returns hline hlex' rfl hbound
  have hmeets := (parser_meets fuel).line hlex (suffix_refl s) (by rwa [append_nil] at hbound)
  rw [hcall] at hmeets
  obtain ⟨-, -, -, -, -, -, hspelled⟩ := hmeets
  exact ⟨cmd, _, parsecmd_done hcall hrest, by rw [readCmd_nulterminate hs hspelled, ht]⟩

/-- What `parsecmd` returns is the command of a line, and nothing else goes wrong. -/
theorem parsecmd_sound (hs : NUL ∉ s) (hlex : Lexes s ts) (hfuel : 4 * s.length + 4 ≤ fuel) :
    (∃ cmd buffer, parsecmd fuel s = .done (cmd, buffer) ∧ Line ts (readCmd buffer cmd)) ∨
      ∃ message ∈ syntaxErrors, parsecmd fuel s = .panic message := by
  have hle := hlex.length_le
  have hmeets := (parser_meets fuel).line hlex (suffix_refl s) (by omega)
  cases hcall : parseline fuel s with
  | done r =>
    obtain ⟨cmd, s'⟩ := r
    rw [hcall] at hmeets
    obtain ⟨us, rest, rfl, hline, hrest, -, hspelled⟩ := hmeets
    cases rest with
    | nil =>
      refine .inl ⟨cmd, _, parsecmd_done hcall hrest, ?_⟩
      rwa [readCmd_nulterminate hs hspelled, append_nil]
    | cons t rest =>
      refine .inr ⟨"syntax", mem_cons_self, ?_⟩
      have hne : (peek [] s').2 ≠ [] := by
        obtain ⟨-, hlex', -⟩ := peek_spec [] (by decide) hrest
        intro hnil
        rw [hnil] at hlex'
        cases hlex'
      simp only [parsecmd, hcall, Outcome.done_bind]
      rw [if_pos hne]
  | panic message =>
    rw [hcall] at hmeets
    refine .inr ⟨message, hmeets, ?_⟩
    simp only [parsecmd, hcall, Outcome.panic_bind]
  | outOfFuel =>
    rw [hcall] at hmeets
    exact hmeets.elim

/-- The shell's parser and its grammar. Every NUL-terminated string has tokens, and `parsecmd`
terminates on it. It returns a command if and only if the tokens are a line, and the command is the
only one that the grammar gives; otherwise it ends in one of the panics for syntax errors. -/
theorem shell_parser_exact (s : List Char) (hs : NUL ∉ s) :
    (∃ ts, Lexes s ts) ∧ ∃ bound, ∀ fuel ≥ bound,
      (∃ cmd buffer, parsecmd fuel s = .done (cmd, buffer) ∧
        ∀ ts, Lexes s ts → ∀ t, Line ts t ↔ t = readCmd buffer cmd) ∨
      ∃ message ∈ syntaxErrors, parsecmd fuel s = .panic message ∧
        ∀ ts, Lexes s ts → ∀ t, ¬ Line ts t := by
  obtain ⟨ts, hlex⟩ := exists_lexes s
  refine ⟨⟨ts, hlex⟩, 4 * s.length + 4, fun fuel hfuel => ?_⟩
  rcases parsecmd_sound hs hlex hfuel with ⟨cmd, buffer, hcall, -⟩ | ⟨message, hmem, hcall⟩
  · refine .inl ⟨cmd, buffer, hcall, fun ts hlex t => ⟨fun hline => ?_, ?_⟩⟩
    · obtain ⟨cmd', buffer', hcall', ht⟩ := parsecmd_of_line hs hlex hline hfuel
      obtain ⟨rfl, rfl⟩ := Prod.mk.inj (Outcome.done.inj (hcall.symm.trans hcall'))
      exact ht.symm
    · rintro rfl
      rcases parsecmd_sound hs hlex hfuel with ⟨cmd', buffer', hcall', hline⟩ | ⟨_, -, hcall'⟩
      · obtain ⟨rfl, rfl⟩ := Prod.mk.inj (Outcome.done.inj (hcall.symm.trans hcall'))
        exact hline
      · exact nomatch hcall.symm.trans hcall'
  · refine .inr ⟨message, hmem, hcall, fun ts hlex t hline => ?_⟩
    obtain ⟨_, _, hcall', -⟩ := parsecmd_of_line hs hlex hline hfuel
    exact nomatch hcall.symm.trans hcall'

/-- A pipe whose first command reads from a file. -/
def pipeline : List Char := ['a', ' ', '<', 'b', '|', 'c', '&']

def pipelineTokens : List Token := [.word ['a'], .less, .word ['b'], .bar, .word ['c'], .amp]

def pipelineTree : Tree := .back (.pipe (.redir (.exec [['a']]) ['b'] O_RDONLY 0) (.exec [['c']]))

theorem pipeline_lexes : Lexes pipeline pipelineTokens := by
  refine .word (c := 'a') (w := []) (by decide) (by rintro _ ⟨⟩; rfl) ?_
  refine .blank (by decide) (.single rfl ?_)
  refine .word (c := 'b') (w := []) (by decide) (by rintro _ ⟨⟩; rfl) ?_
  refine .single rfl ?_
  exact .word (c := 'c') (w := []) (by decide) (by rintro _ ⟨⟩; rfl) (.single rfl .nil)

theorem pipeline_line : Line pipelineTokens pipelineTree := by
  have hleft : Exec [.word ['a'], .less, .word ['b']] _ :=
    .simple [] [⟨['a'], [⟨.input, ['b']⟩]⟩] (by decide)
  have hright : Exec [.word ['c']] _ := .simple [] [⟨['c'], []⟩] (by decide)
  exact .last 1 (.pipe hleft (.last hright))

theorem shell_parser_exact_pipeline :
    ∃ bound, ∀ fuel ≥ bound, ∃ cmd buffer, parsecmd fuel pipeline = .done (cmd, buffer) ∧
      readCmd buffer cmd = pipelineTree := by
  obtain ⟨-, bound, hbound⟩ := shell_parser_exact pipeline (by decide)
  refine ⟨bound, fun fuel hfuel => ?_⟩
  rcases hbound fuel hfuel with ⟨cmd, buffer, hcall, hline⟩ | ⟨message, -, -, hnot⟩
  · exact ⟨cmd, buffer, hcall, ((hline _ pipeline_lexes _).mp pipeline_line).symm⟩
  · exact absurd pipeline_line (hnot _ pipeline_lexes _)

end Xv6.Shell
