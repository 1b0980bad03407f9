import Xv6.Shell.Lexing

/-!
# What the parser returns is a phrase of the grammar

Each parsing function consumes a phrase of its nonterminal and returns the command for it, unless it
ends in one of the panics for syntax errors. With enough fuel it does not run out.
-/

namespace Xv6.Shell

open List

/-! ### Words of commands -/

/-- The characters between two pointers. -/
def Span.text (span : Span) : List Char := span.q.take (span.q.length - span.eq.length)

variable {w : List Char} {span : Span}

/-- Between the pointers stands the word. -/
theorem IsWord.text_eq {s : Ptr} (h : IsWord s span w) : span.text = w := by
  rw [Span.text, h.text, length_append, Nat.add_sub_cancel]
  exact take_left

namespace Cmd

variable {α β : Type}

/-- The words of a command. -/
def words : Cmd α → List α
  | .exec argv => argv
  | .redir cmd file _ _ => cmd.words ++ [file]
  | .pipe left right => left.words ++ right.words
  | .list left right => left.words ++ right.words
  | .back cmd => cmd.words

/-- The command with the characters of its words. -/
def texts (cmd : Cmd Span) : Tree := cmd.map Span.text

theorem map_congr {f g : α → β} {cmd : Cmd α} (h : ∀ x ∈ cmd.words, f x = g x) :
    cmd.map f = cmd.map g := by
  induction cmd with
  | exec argv => exact congrArg Cmd.exec (map_congr_left h)
  | redir cmd file mode fd ih =>
    rw [map, map, ih fun x hx => h x (mem_append_left _ hx),
      h file (mem_append_right _ mem_cons_self)]
  | pipe left right ihl ihr | list left right ihl ihr =>
    rw [map, map, ihl fun x hx => h x (mem_append_left _ hx),
      ihr fun x hx => h x (mem_append_right _ hx)]
  | back cmd ih => rw [map, map, ih h]

/-- `addArg` commutes with `map`. -/
theorem map_addArg (f : α → β) (arg : α) (cmd : Cmd α) :
    (cmd.addArg arg).map f = (cmd.map f).addArg (f arg) := by
  induction cmd with
  | exec argv => simp [addArg, map]
  | redir cmd file mode fd ih => simp [addArg, map, ih]
  | pipe | list | back => rfl

/-- `addArg` adds one word and no other. -/
theorem mem_words_addArg {x arg : α} {cmd : Cmd α} (h : x ∈ (cmd.addArg arg).words) :
    x = arg ∨ x ∈ cmd.words := by
  induction cmd with
  | exec argv => simpa [addArg, words, or_comm] using h
  | redir cmd file mode fd ih =>
    simp only [addArg, words, mem_append] at h ⊢
    rcases h with h | h
    · exact (ih h).imp_right .inl
    · exact .inr (.inr h)
  | pipe | list | back => exact .inr h

end Cmd

/-- The words of a command are words of the string `base`. -/
def Spelled (base : Ptr) (cmd : Cmd Span) : Prop := ∀ span ∈ cmd.words, ∃ w, IsWord base span w

variable {base : Ptr} {cmd : Cmd Span}

/-- A redirection adds the word of its file. -/
theorem Spelled.redir (hcmd : Spelled base cmd) (hw : IsWord base span w) (mode fd : Nat) :
    Spelled base (.redir cmd span mode fd) := by
  exact forall_mem_append.mpr ⟨hcmd, forall_mem_singleton.mpr ⟨w, hw⟩⟩

theorem Spelled.addArg
    (hcmd : Spelled base cmd) (hw : IsWord base span w) : Spelled base (cmd.addArg span) := by
  intro x hx
  rcases Cmd.mem_words_addArg hx with rfl | hx
  · exact ⟨w, hw⟩
  · exact hcmd x hx

/-- A word goes to the innermost command. -/
theorem wrapAll_addArg (w : List Char) (rs : List Redir) (t : Tree) :
    (wrapAll t rs).addArg w = wrapAll (t.addArg w) rs := by
  induction rs generalizing t with
  | nil => rfl
  | cons r rs ih => exact ih (r.wrap t)

/-- Redirections can be added in two steps. -/
theorem wrapAll_append (t : Tree) (rs rs' : List Redir) :
    wrapAll (wrapAll t rs) rs' = wrapAll t (rs ++ rs') := foldl_append.symm

/-- One more word with its redirections. -/
theorem simpleCmd_append (rs : List Redir) (args : List Arg) (arg : Arg) :
    wrapAll ((simpleCmd rs args).addArg arg.word) arg.redirs = simpleCmd rs (args ++ [arg]) := by
  simp only [simpleCmd, wrapAll_addArg, wrapAll_append, Cmd.addArg, map_append, map_cons,
    map_nil, flatMap_append, flatMap_cons, flatMap_nil, append_nil,
    append_assoc]

/-! ### What a call may do -/

/-- The messages of the panics for syntax errors. -/
def syntaxErrors : List String :=
  ["syntax", "missing file for redirection", "syntax - missing )", "too many args"]

/-- The call consumes a phrase of `P` and returns its command, or panics for a syntax error. -/
def Meets (base : Ptr) (ts : List Token) (P : List Token → Tree → Prop) :
    Outcome (Cmd Span × Ptr) → Prop
  | .done (cmd, s) => ∃ us rest, ts = us ++ rest ∧ P us cmd.texts ∧ Lexes s rest ∧ s <:+ base ∧
      Spelled base cmd
  | .panic message => message ∈ syntaxErrors
  | .outOfFuel => False

section Meets

variable {base s : Ptr} {ts rest : List Token} {P Q : List Token → Tree → Prop} {cmd : Cmd Span}

/-- A call that consumes nothing. -/
theorem Meets.done (hP : P [] cmd.texts) (hlex : Lexes s ts) (hs : s <:+ base)
    (hcmd : Spelled base cmd) : Meets base ts P (.done (cmd, s)) :=
  ⟨[], ts, rfl, hP, hlex, hs, hcmd⟩

variable {o : Outcome (Cmd Span × Ptr)}

/-- Tokens that have been taken before the call. -/
theorem Meets.consume (us : List Token)
    (h : Meets base rest (fun vs t => P (us ++ vs) t) o) : Meets base (us ++ rest) P o := by
  match o, h with
  | .done (cmd, s), ⟨vs, rest', hrest, hP, hlex, hs, hcmd⟩ =>
    exact ⟨us ++ vs, rest', by rw [hrest, append_assoc], hP, hlex, hs, hcmd⟩
  | .panic message, h => exact h

/-- One call after another consumes one phrase after another. -/
theorem Meets.bind {x : Outcome (Cmd Span × Ptr)}
    {f : Cmd Span × Ptr → Outcome (Cmd Span × Ptr)} (hx : Meets base ts P x)
    (hf : ∀ cmd s us rest, ts = us ++ rest → P us cmd.texts → Lexes s rest → s <:+ base →
      Spelled base cmd → Meets base rest (fun vs t => Q (us ++ vs) t) (f (cmd, s))) :
    Meets base ts Q (x >>= f) := by
  match x, hx with
  | .done (cmd, s), ⟨us, rest, hts, hP, hlex, hs, hcmd⟩ =>
    rw [Outcome.done_bind, hts]
    exact (hf cmd s us rest hts hP hlex hs hcmd).consume us
  | .panic message, hx => exact hx

/-- A weaker condition on the phrase. -/
theorem Meets.imp (h : Meets base ts P o) (himp : ∀ us t, P us t → Q us t) : Meets base ts Q o := by
  match o, h with
  | .done (cmd, s), ⟨us, rest, hts, hP, hrest⟩ => exact ⟨us, rest, hts, himp _ _ hP, hrest⟩
  | .panic message, h => exact h

end Meets

/-! ### The loops -/

section Loops

variable {base s : Ptr} {ts : List Token} {cmd : Cmd Span}

/-- `gettoken` returns `a` for words only. -/
theorem code_eq_a {t : Token} : t.code = 'a' ↔ ∃ w, t = .word w := by
  cases t <;> simp [Token.code]

theorem redircmd_token (kind : RedirKind) (cmd : Cmd Span) (file : Span) :
    redircmd kind.token.code cmd file = .redir cmd file kind.mode kind.fd := by
  cases kind <;> rfl

/-- The tokens at which a redirection begins. -/
theorem redir_of_startsIn {t : Token} (h : t.startsIn ['<', '>'] = true) :
    ∃ kind : RedirKind, t = kind.token := by
  cases t with
  | less => exact ⟨.input, rfl⟩
  | greater => exact ⟨.output, rfl⟩
  | append => exact ⟨.append, rfl⟩
  | word | bar | amp | semi | lparen | rparen => simp [Token.startsIn, Token.code] at h

variable (hlex : Lexes s ts) (hs : s <:+ base)
include hlex hs

/-- A peek for one symbol does not find it, or `gettoken` takes it next. -/
theorem peek_single {c : Char} {t : Token} (hc : single c = some t) :
    Lexes (peek [c] s).2 ts ∧ (peek [c] s).2 <:+ base ∧ ((peek [c] s).1 = false ∨
      ∃ us, ts = t :: us ∧ (peek [c] s).1 = true ∧ Lexes (gettoken (peek [c] s).2).rest us ∧
        (gettoken (peek [c] s).2).rest <:+ base) := by
  obtain ⟨hsymbol, hstarts⟩ := startsIn_single hc
  obtain ⟨hfound, hlex', hs'⟩ := peek_spec [c] (by simpa using hsymbol) hlex
  refine ⟨hlex', hs'.trans hs, ?_⟩
  cases ts with
  | nil => exact .inl hfound
  | cons u us =>
    have hpeek : (peek [c] s).1 = decide (u = t) := hfound.trans (hstarts u)
    by_cases hu : u = t
    · subst hu
      obtain ⟨-, hrest, hsuffix, -⟩ := gettoken_cons hlex'
      exact .inr ⟨us, rfl, by simpa using hpeek, hrest, (hsuffix.trans hs').trans hs⟩
    · exact .inl (by simpa [hu] using hpeek)

variable (fuel : Nat) (hcmd : Spelled base cmd) (hfuel : ts.length < fuel)
include hcmd hfuel

/-- The loop of `parseredirs` consumes redirections. -/
theorem parseredirs_meets :
    Meets base ts (fun us t => ∃ rs, us = redirTokens rs ∧ t = wrapAll cmd.texts rs)
      (parseredirs fuel cmd s) := by
  induction fuel generalizing s ts cmd with
  | zero => omega
  | succ fuel ih =>
    obtain ⟨hfound, hlex', hs'⟩ := peek_spec ['<', '>'] (by decide) hlex
    simp only [parseredirs, hfound]
    cases hany : ts.head?.any (Token.startsIn ['<', '>']) with
    | false => exact .done ⟨[], rfl, rfl⟩ hlex' (hs'.trans hs) hcmd
    | true =>
      obtain _ | ⟨t, us⟩ := ts
      · cases hany
      obtain ⟨kind, rfl⟩ := redir_of_startsIn hany
      obtain ⟨hret, hrest, hsuffix, -⟩ := gettoken_cons hlex'
      have hbase := (hsuffix.trans hs').trans hs
      rw [if_pos rfl, hret]
      cases us with
      | nil =>
        rw [if_pos (by rw [(gettoken_nil hrest).1]; decide)]
        exact mem_of_elem_eq_true (by decide)
      | cons t us =>
        obtain ⟨hret', hrest', hsuffix', hword⟩ := gettoken_cons hrest
        rw [hret']
        by_cases hcode : t.code = 'a'
        · obtain ⟨w, rfl⟩ := code_eq_a.mp hcode
          have hw := (hword w rfl).mono hbase
          rw [if_neg (not_not_intro hcode), redircmd_token]
          have hmeets := ih hrest' (hsuffix'.trans hbase) (hcmd.redir hw kind.mode kind.fd)
            (by simp only [length_cons] at hfuel; omega)
          refine Meets.consume [kind.token, .word w] (hmeets.imp ?_)
          rintro vs t ⟨rs, rfl, rfl⟩
          refine ⟨⟨kind, w⟩ :: rs, rfl, ?_⟩
          simp only [Cmd.texts, Cmd.map, hw.text_eq]
          rfl
        · rw [if_pos hcode]
          exact mem_of_elem_eq_true (by decide)

/-- The loop of `parseline` over `&`. -/
theorem parsebacks_meets :
    Meets base ts (fun us t => ∃ n, us = List.replicate n .amp ∧ t = backs n cmd.texts)
      (parsebacks fuel cmd s) := by
  induction fuel generalizing s ts cmd with
  | zero => omega
  | succ fuel ih =>
    obtain ⟨hlex', hs', hnot | ⟨us, rfl, hyes, hrest, hs''⟩⟩ := peek_single (c := '&') hlex hs rfl
    · simp only [parsebacks, hnot]
      exact .done ⟨0, rfl, rfl⟩ hlex' hs' hcmd
    · simp only [parsebacks, hyes]
      have hcmd' : Spelled base (.back cmd) := hcmd
      have hmeets := ih hrest hs'' hcmd' (Nat.lt_of_succ_lt_succ hfuel)
      refine Meets.consume [.amp] (hmeets.imp ?_)
      rintro vs t ⟨n, rfl, rfl⟩
      exact ⟨n + 1, rfl, rfl⟩

/-- The loop of `parseexec` consumes words and their redirections. -/
theorem parseargs_meets {rs : List Redir} {args : List Arg}
    (hargs : args.length < MAXARGS) (htexts : cmd.texts = simpleCmd rs args) :
    Meets base ts (fun us t => ∃ args', us = args'.flatMap Arg.tokens ∧
        (args ++ args').length < MAXARGS ∧ t = simpleCmd rs (args ++ args'))
      (parseargs fuel args.length cmd s) := by
  induction fuel generalizing s ts cmd args with
  | zero => omega
  | succ fuel ih =>
    obtain ⟨hfound, hlex', hs'⟩ := peek_spec ['|', ')', '&', ';'] (by decide) hlex
    have hbase := hs'.trans hs
    simp only [parseargs, hfound]
    have hstop : ∃ args', [] = args'.flatMap Arg.tokens ∧ (args ++ args').length < MAXARGS ∧
        cmd.texts = simpleCmd rs (args ++ args') :=
      ⟨[], rfl, by rwa [append_nil], by rwa [append_nil]⟩
    cases hany : ts.head?.any (Token.startsIn ['|', ')', '&', ';']) with
    | true => exact .done hstop hlex' hbase hcmd
    | false =>
      cases ts with
      | nil =>
        obtain ⟨hret, hnil⟩ := gettoken_nil hlex'
        rw [if_pos hret, hnil]
        exact .done hstop .nil nil_suffix hcmd
      | cons t us =>
        obtain ⟨hret, hrest, hsuffix, hword⟩ := gettoken_cons hlex'
        have hnul : t.code ≠ NUL := by cases t <;> simp [Token.code, NUL]
        rw [hret, if_neg hnul]
        by_cases hcode : t.code = 'a'
        · obtain ⟨w, rfl⟩ := code_eq_a.mp hcode
          have hw := (hword w rfl).mono hbase
          by_cases hmany : args.length + 1 ≥ MAXARGS
          · rw [if_pos hmany]
            exact mem_of_elem_eq_true (by decide)
          · rw [if_neg hmany]
            have hlt := Nat.lt_of_succ_lt_succ hfuel
            refine Meets.consume [.word w] ?_
            refine (parseredirs_meets hrest (hsuffix.trans hbase) fuel (hcmd.addArg hw) hlt).bind ?_
            rintro ret s vs rest rfl ⟨rs', rfl, hret'⟩ hlexs hbases hspelled
            have htexts' : ret.texts = simpleCmd rs (args ++ [⟨w, rs'⟩]) := by
              rw [← simpleCmd_append, hret', Cmd.texts, Cmd.map_addArg, hw.text_eq, ← htexts]
              rfl
            have hmeets := ih hlexs hbases hspelled (by simp only [length_append] at hlt; omega)
              (by simp only [length_append, length_cons, length_nil]; omega)
              htexts'
            rw [length_append, length_singleton] at hmeets
            refine hmeets.imp ?_
            rintro vs t ⟨args', rfl, hlength, rfl⟩
            rw [append_assoc] at hlength
            refine ⟨⟨w, rs'⟩ :: args', rfl, hlength, ?_⟩
            rw [append_assoc]
            rfl
        · rw [if_pos hcode]
          exact mem_of_elem_eq_true (by decide)

end Loops

/-! ### The parser -/

section Parser

variable {base s : Ptr} {ts : List Token} {fuel : Nat}

/-- The four functions with some fuel. Four calls may nest before one of them consumes a token. -/
structure ParserMeets (fuel : Nat) : Prop where
  line : ∀ {base s ts}, Lexes s ts → s <:+ base → 4 * ts.length + 4 ≤ fuel →
    Meets base ts Line (parseline fuel s)
  pipe : ∀ {base s ts}, Lexes s ts → s <:+ base → 4 * ts.length + 3 ≤ fuel →
    Meets base ts Pipe (parsepipe fuel s)
  exec : ∀ {base s ts}, Lexes s ts → s <:+ base → 4 * ts.length + 2 ≤ fuel →
    Meets base ts Exec (parseexec fuel s)
  block : ∀ {base s ts}, Lexes s (.lparen :: ts) → s <:+ base →
    4 * (ts.length + 1) + 1 ≤ fuel → Meets base (.lparen :: ts) Exec (parseblock fuel s)

section

variable (ih : ParserMeets fuel) (hlex : Lexes s ts) (hs : s <:+ base)
include ih

/-- `parseblock` consumes a line in parentheses and redirections. -/
theorem parseblock_meets (hlex : Lexes s (.lparen :: ts)) (hs : s <:+ base)
    (hfuel : 4 * (ts.length + 1) + 1 ≤ fuel + 1) :
    Meets base (.lparen :: ts) Exec (parseblock (fuel + 1) s) := by
  obtain ⟨hfound, hlex', hs'⟩ := peek_spec ['('] (by decide) hlex
  obtain ⟨-, hlex'', hsuffix, -⟩ := gettoken_cons hlex'
  have hopen : (peek ['('] s).1 = true := by rw [hfound]; rfl
  unfold parseblock
  simp only [hopen]
  refine Meets.consume [.lparen] ?_
  refine (ih.line hlex'' ((hsuffix.trans hs').trans hs) (by omega)).bind ?_
  rintro cmd s us rest rfl hline hlex hs hcmd
  rw [length_append] at hfuel
  obtain ⟨-, -, hnot | ⟨rest, rfl, hclose, hlexr, hsr⟩⟩ := peek_single (c := ')') hlex hs rfl
  · simp only [hnot]
    exact mem_of_elem_eq_true (by decide)
  · rw [length_cons] at hfuel
    simp only [hclose]
    refine Meets.consume [.rparen] ?_
    refine (parseredirs_meets hlexr hsr fuel hcmd (by omega)).imp ?_
    rintro vs t ⟨rs, rfl, rfl⟩
    exact .block rs hline

include hlex hs

/-- `parseline` consumes a line. -/
theorem parseline_meets
    (hfuel : 4 * ts.length + 4 ≤ fuel + 1) : Meets base ts Line (parseline (fuel + 1) s) := by
  refine (ih.pipe hlex hs (by omega)).bind ?_
  rintro cmd s us rest rfl hpipe hlex hs hcmd
  rw [length_append] at hfuel
  refine (parsebacks_meets hlex hs fuel hcmd (by omega)).bind ?_
  rintro cmd s vs rest rfl ⟨n, rfl, hbacks⟩ hlex hs hcmd
  rw [length_append] at hfuel
  obtain ⟨hlex', hs', hnot | ⟨rest, rfl, hyes, hlex'', hs''⟩⟩ := peek_single (c := ';') hlex hs rfl
  · simp only [hnot]
    refine .done ?_ hlex' hs' hcmd
    rw [hbacks, append_nil]
    exact .last n hpipe
  · rw [length_cons] at hfuel
    simp only [hyes]
    refine Meets.consume [.semi] ?_
    refine (ih.line hlex'' hs'' (by omega)).bind ?_
    rintro right s ws rest rfl hline hlex hs hright
    refine .done ?_ hlex hs (forall_mem_append.mpr ⟨hcmd, hright⟩)
    have hlist := Line.list n hpipe hline
    rw [← hbacks] at hlist
    rwa [append_nil, ← append_assoc]

/-- `parsepipe` consumes a pipe. -/
theorem parsepipe_meets
    (hfuel : 4 * ts.length + 3 ≤ fuel + 1) : Meets base ts Pipe (parsepipe (fuel + 1) s) := by
  refine (ih.exec hlex hs (by omega)).bind ?_
  rintro cmd s us rest rfl hexec hlex hs hcmd
  rw [length_append] at hfuel
  obtain ⟨hlex', hs', hnot | ⟨rest, rfl, hyes, hlex'', hs''⟩⟩ := peek_single (c := '|') hlex hs rfl
  · simp only [hnot]
    refine .done ?_ hlex' hs' hcmd
    rw [append_nil]
    exact .last hexec
  · rw [length_cons] at hfuel
    simp only [hyes]
    refine Meets.consume [.bar] ?_
    refine (ih.pipe hlex'' hs'' (by omega)).bind ?_
    rintro right s ws rest rfl hpipe hlex hs hright
    refine .done ?_ hlex hs (forall_mem_append.mpr ⟨hcmd, hright⟩)
    rw [append_nil]
    exact .pipe hexec hpipe

/-- `parseexec` consumes a block or a simple command. -/
theorem parseexec_meets
    (hfuel : 4 * ts.length + 2 ≤ fuel + 1) : Meets base ts Exec (parseexec (fuel + 1) s) := by
  unfold parseexec
  obtain ⟨hlex', hs', hnot | ⟨rest, rfl, hyes, -, -⟩⟩ := peek_single (c := '(') hlex hs rfl
  · simp only [hnot]
    have hempty : Spelled base (.exec []) := by rintro span ⟨⟩
    refine (parseredirs_meets hlex' hs' fuel hempty (by omega)).bind ?_
    rintro ret s us rest rfl ⟨rs, rfl, hret⟩ hlex hs hspelled
    rw [length_append] at hfuel
    have htexts : ret.texts = simpleCmd rs [] := by
      rw [hret, simpleCmd, flatMap_nil, append_nil]
      rfl
    refine (parseargs_meets hlex hs fuel hspelled (by omega) (by decide) htexts).imp ?_
    rintro vs t ⟨args, rfl, hlength, rfl⟩
    exact .simple rs args hlength
  · rw [length_cons] at hfuel
    simp only [hyes]
    exact ih.block hlex' hs' (by omega)

end

/-- The parser consumes phrases of the grammar, or reports a syntax error. -/
theorem parser_meets (fuel : Nat) : ParserMeets fuel := by
  induction fuel with
  | zero => exact ⟨fun _ _ h => by omega, fun _ _ h => by omega, fun _ _ h => by omega,
      fun _ _ h => by omega⟩
  | succ fuel ih =>
    exact ⟨parseline_meets ih, parsepipe_meets ih, parseexec_meets ih, parseblock_meets ih⟩

end Parser

end Xv6.Shell
