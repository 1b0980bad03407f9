import Xv6.Shell.Sound

/-!
# The parser accepts every phrase of the grammar

A phrase that is followed by a token that may follow it is consumed as a whole, and its command is
returned. So a command line has at most one command.
-/

namespace Xv6.Shell

open List

/-- The call returns the command `t` and stops in front of the tokens `rest`. -/
def Returns (o : Outcome (Cmd Span × Ptr)) (rest : List Token) (t : Tree) : Prop :=
  ∃ cmd s, o = .done (cmd, s) ∧ Lexes s rest ∧ cmd.texts = t

/-- The next token is none of `toks`. -/
def NotNext (toks : List Char) (rest : List Token) : Prop :=
  rest.head?.any (Token.startsIn toks) = false

/-- `peek`, when it is known what comes next. -/
theorem peek_eq (toks : List Char) (found : Bool) {s : Ptr} {ts : List Token}
    (htoks : ∀ c ∈ toks, strchr symbols c = true) (h : Lexes s ts)
    (hfound : ts.head?.any (Token.startsIn toks) = found) :
    (peek toks s).1 = found ∧ Lexes (peek toks s).2 ts := by
  obtain ⟨hpeek, hlex, -⟩ := peek_spec toks htoks h
  exact ⟨hpeek.trans hfound, hlex⟩

/-- The next token is one of `toks`, or there is none. -/
def Next (toks : List Char) (rest : List Token) : Prop :=
  rest.head?.all (Token.startsIn toks) = true

section Next

variable {toks : List Char} {rest : List Token} {toks' : List Char}

section

variable (h : Next toks rest)
include h

/-- A larger set of symbols. -/
theorem Next.mono (hsub : ∀ c ∈ toks, c ∈ toks') : Next toks' rest := by
  cases rest with
  | nil => rfl
  | cons t rest =>
    simp only [Next, head?_cons, Option.all_some] at h ⊢
    cases t <;> simp_all [Token.startsIn, Token.code]

/-- Of two disjoint sets of symbols, only one can come next. -/
theorem Next.notNext (hdisjoint : ∀ c ∈ toks, c ∉ toks') : NotNext toks' rest := by
  cases rest with
  | nil => rfl
  | cons t rest =>
    simp only [Next, NotNext, head?_cons, Option.all_some, Option.any_some] at h ⊢
    cases t <;> simp_all [Token.startsIn, Token.code]

theorem Next.replicate_amp {n : Nat} (hamp : '&' ∈ toks) :
    Next toks (List.replicate n .amp ++ rest) := by
  cases n with
  | zero => exact h
  | succ n => simpa [Next, replicate_succ, Token.startsIn, Token.code] using hamp

end

end Next

section Returns

variable {s : Ptr} {rest rest' : List Token} {t t' : Tree} {cmd : Cmd Span}

/-- One call after another. -/
theorem Returns.bind {x : Outcome (Cmd Span × Ptr)}
    {f : Cmd Span × Ptr → Outcome (Cmd Span × Ptr)} (hx : Returns x rest t)
    (hf : ∀ cmd s, Lexes s rest → cmd.texts = t → Returns (f (cmd, s)) rest' t') :
    Returns (x >>= f) rest' t' := by
  obtain ⟨cmd, s, rfl, hlex, ht⟩ := hx
  exact hf cmd s hlex ht

/-! ### The loops -/

variable {rs : List Redir}

/-- `parseredirs` takes all the redirections. -/
theorem parseredirs_returns {fuel : Nat} (hlex : Lexes s (redirTokens rs ++ rest))
    (hrest : NotNext ['<', '>'] rest) (hfuel : (redirTokens rs ++ rest).length < fuel) :
    Returns (parseredirs fuel cmd s) rest (wrapAll cmd.texts rs) := by
  induction rs generalizing fuel s cmd with
  | nil =>
    obtain ⟨hnot, hlex'⟩ := peek_eq ['<', '>'] false (by decide) hlex hrest
    obtain _ | fuel := fuel
    · omega
    simp only [parseredirs, hnot]
    exact ⟨cmd, _, rfl, hlex', rfl⟩
  | cons r rs ih =>
    have htokens : redirTokens (r :: rs) ++ rest =
        r.kind.token :: .word r.file :: (redirTokens rs ++ rest) := rfl
    rw [htokens] at hlex hfuel
    obtain ⟨hfound, hlex', -⟩ := peek_spec ['<', '>'] (by decide) hlex
    obtain _ | fuel := fuel
    · omega
    have hyes : (peek ['<', '>'] s).1 = true := by
      rw [hfound]
      cases hkind : r.kind <;> rfl
    obtain ⟨hret, hlexf, -⟩ := gettoken_cons hlex'
    obtain ⟨hret', hlexr, -, hword⟩ := gettoken_cons hlexf
    have htext := (hword _ rfl).text_eq
    simp only [parseredirs, hyes]
    rw [if_pos trivial, hret', if_neg (by simp [Token.code]), hret, redircmd_token]
    have htexts : ∀ span : Span, span.text = r.file →
        wrapAll (Cmd.redir cmd span r.kind.mode r.kind.fd).texts rs =
          wrapAll cmd.texts (r :: rs) := by
      rintro span hspan
      rw [Cmd.texts, Cmd.map, hspan]
      rfl
    rw [← htexts _ htext]
    exact ih hlexr (by simp only [length_cons] at hfuel; omega)

/-- `parseline` takes every `&`. -/
theorem parsebacks_returns {fuel n : Nat} (hlex : Lexes s (List.replicate n .amp ++ rest))
    (hrest : NotNext ['&'] rest) (hfuel : (List.replicate n Token.amp ++ rest).length < fuel) :
    Returns (parsebacks fuel cmd s) rest (backs n cmd.texts) := by
  induction n generalizing fuel s cmd with
  | zero =>
    obtain ⟨hnot, hlex'⟩ := peek_eq ['&'] false (by decide) hlex hrest
    obtain _ | fuel := fuel
    · omega
    simp only [parsebacks, hnot]
    exact ⟨cmd, _, rfl, hlex', rfl⟩
  | succ n ih =>
    obtain ⟨hyes, hlex'⟩ := peek_eq ['&'] true (by decide) hlex rfl
    obtain _ | fuel := fuel
    · omega
    obtain ⟨-, hlexr, -⟩ := gettoken_cons hlex'
    simp only [parsebacks, hyes]
    exact ih hlexr (Nat.lt_of_succ_lt_succ hfuel)

/-- `parseexec` takes all the words and their redirections. -/
theorem parseargs_returns {fuel : Nat} {args args' : List Arg}
    (hlex : Lexes s (args'.flatMap Arg.tokens ++ rest)) (hrest : Next ['|', ')', '&', ';'] rest)
    (hfuel : (args'.flatMap Arg.tokens ++ rest).length < fuel)
    (hargs : (args ++ args').length < MAXARGS) (htexts : cmd.texts = simpleCmd rs args) :
    Returns (parseargs fuel args.length cmd s) rest (simpleCmd rs (args ++ args')) := by
  induction args' generalizing fuel s cmd args with
  | nil =>
    obtain ⟨hfound, hlex', -⟩ := peek_spec ['|', ')', '&', ';'] (by decide) hlex
    obtain _ | fuel := fuel
    · omega
    rw [append_nil, ← htexts]
    simp only [parseargs, hfound]
    cases rest with
    | nil =>
      obtain ⟨hret, hnil⟩ := gettoken_nil hlex'
      rw [if_neg (by simp), if_pos hret, hnil]
      exact ⟨cmd, [], rfl, .nil, rfl⟩
    | cons t rest =>
      have ht : t.startsIn ['|', ')', '&', ';'] = true := hrest
      exact ⟨cmd, _, if_pos ht, hlex', rfl⟩
  | cons arg args' ih =>
    have htokens : (arg :: args').flatMap Arg.tokens ++ rest =
        .word arg.word :: (redirTokens arg.redirs ++ (args'.flatMap Arg.tokens ++ rest)) := by
      simp [Arg.tokens]
    rw [htokens] at hlex hfuel
    obtain ⟨hnot, hlex'⟩ := peek_eq ['|', ')', '&', ';'] false (by decide) hlex rfl
    obtain _ | fuel := fuel
    · omega
    obtain ⟨hret, hlexw, -, hword⟩ := gettoken_cons hlex'
    have htext := (hword _ rfl).text_eq
    simp only [parseargs, hnot]
    rw [if_neg Bool.false_ne_true, hret, if_neg (by simp [Token.code, NUL]),
      if_neg (by simp [Token.code]),
      if_neg (by simp only [length_append, length_cons] at hargs; omega)]
    rw [length_cons] at hfuel
    have hnext : NotNext ['<', '>'] (args'.flatMap Arg.tokens ++ rest) := by
      cases args' with
      | nil => exact hrest.notNext (by decide)
      | cons _ _ => rfl
    refine (parseredirs_returns hlexw hnext (by omega)).bind ?_
    intro cmd' s' hlexs htexts'
    have hsimple : cmd'.texts = simpleCmd rs (args ++ [arg]) := by
      rw [← simpleCmd_append, htexts', Cmd.texts, Cmd.map_addArg, htext, ← htexts]
      rfl
    have happend : args ++ arg :: args' = (args ++ [arg]) ++ args' := by simp
    have hlt : (args'.flatMap Arg.tokens ++ rest).length < fuel := by
      rw [length_append] at hfuel
      omega
    have hreturns := ih hlexs hlt (happend ▸ hargs) hsimple
    rw [length_append, length_singleton] at hreturns
    rwa [happend]

end Returns

/-! ### The parser -/

mutual
/-- `parseline` returns the command of a line. -/
theorem parseline_returns {us rest : List Token} {t : Tree} (h : Line us t) {fuel : Nat} {s : Ptr}
    (hlex : Lexes s (us ++ rest)) (hrest : Next [')'] rest)
    (hfuel : 4 * (us ++ rest).length + 4 ≤ fuel) : Returns (parseline fuel s) rest t := by
  obtain ⟨fuel, rfl⟩ : ∃ n, fuel = n + 1 := ⟨fuel - 1, by omega⟩
  cases h with
  | last n hpipe =>
    rw [append_assoc] at hlex hfuel
    have hnext : Next ['&', ';', ')'] (List.replicate n .amp ++ rest) :=
      (hrest.mono (by decide)).replicate_amp (by decide)
    refine (parsepipe_returns hpipe hlex hnext (by omega)).bind ?_
    intro cmd s hlex ht
    rw [length_append] at hfuel
    refine (parsebacks_returns hlex (hrest.notNext (by decide)) (by omega)).bind ?_
    intro cmd s hlex hbacks
    obtain ⟨hnot, hlex'⟩ := peek_eq [';'] false (by decide) hlex (hrest.notNext (by decide))
    simp only [hnot]
    exact ⟨cmd, _, rfl, hlex', by rw [hbacks, ht]⟩
  | @list ts t us u n hpipe hline =>
    rw [append_assoc, append_assoc, cons_append] at hlex hfuel
    have hsemi : Next [';'] (.semi :: (us ++ rest)) := rfl
    have hnext : Next ['&', ';', ')'] (List.replicate n .amp ++ .semi :: (us ++ rest)) :=
      (hsemi.mono (by decide)).replicate_amp (by decide)
    refine (parsepipe_returns hpipe hlex hnext (by omega)).bind ?_
    intro cmd s hlex ht
    rw [length_append] at hfuel
    refine (parsebacks_returns hlex (hsemi.notNext (by decide)) (by omega)).bind ?_
    intro cmd s hlex hbacks
    rw [length_append, length_cons] at hfuel
    obtain ⟨hyes, hlex'⟩ := peek_eq [';'] true (by decide) hlex rfl
    obtain ⟨-, hlexr, -⟩ := gettoken_cons hlex'
    simp only [hyes]
    refine (parseline_returns hline hlexr hrest (by omega)).bind ?_
    intro right s hlex hright
    refine ⟨_, s, rfl, hlex, ?_⟩
    rw [← hright, ← ht, ← hbacks]
    rfl

/-- `parsepipe` returns the command of a pipe. -/
theorem parsepipe_returns {us rest : List Token} {t : Tree} (h : Pipe us t) {fuel : Nat} {s : Ptr}
    (hlex : Lexes s (us ++ rest)) (hrest : Next ['&', ';', ')'] rest)
    (hfuel : 4 * (us ++ rest).length + 3 ≤ fuel) : Returns (parsepipe fuel s) rest t := by
  obtain ⟨fuel, rfl⟩ : ∃ n, fuel = n + 1 := ⟨fuel - 1, by omega⟩
  cases h with
  | last hexec =>
    refine (parseexec_returns hexec hlex (hrest.mono (by decide)) (by omega)).bind ?_
    intro cmd s hlex ht
    obtain ⟨hnot, hlex'⟩ := peek_eq ['|'] false (by decide) hlex (hrest.notNext (by decide))
    simp only [hnot]
    exact ⟨cmd, _, rfl, hlex', ht⟩
  | @pipe ts t us u hexec hpipe =>
    rw [append_assoc, cons_append] at hlex hfuel
    have hbar : Next ['|'] (.bar :: (us ++ rest)) := rfl
    refine (parseexec_returns hexec hlex (hbar.mono (by decide)) (by omega)).bind ?_
    intro cmd s hlex ht
    rw [length_append, length_cons] at hfuel
    obtain ⟨hyes, hlex'⟩ := peek_eq ['|'] true (by decide) hlex rfl
    obtain ⟨-, hlexr, -⟩ := gettoken_cons hlex'
    simp only [hyes]
    refine (parsepipe_returns hpipe hlexr hrest (by omega)).bind ?_
    intro right s hlex hright
    refine ⟨_, s, rfl, hlex, ?_⟩
    rw [← hright, ← ht]
    rfl

/-- `parseexec` returns the command of a phrase. -/
theorem parseexec_returns {us rest : List Token} {t : Tree} (h : Exec us t) {fuel : Nat} {s : Ptr}
    (hlex : Lexes s (us ++ rest)) (hrest : Next ['|', ')', '&', ';'] rest)
    (hfuel : 4 * (us ++ rest).length + 2 ≤ fuel) : Returns (parseexec fuel s) rest t := by
  obtain ⟨fuel, rfl⟩ : ∃ n, fuel = n + 1 := ⟨fuel - 1, by omega⟩
  unfold parseexec
  cases h with
  | @block ts t rs hline =>
    rw [cons_append, cons_append, append_assoc, cons_append] at hlex hfuel
    rw [length_cons] at hfuel
    obtain ⟨hyes, hlex'⟩ := peek_eq ['('] true (by decide) hlex rfl
    simp only [hyes]
    -- `parseblock`
    obtain ⟨fuel, rfl⟩ : ∃ n, fuel = n + 1 := ⟨fuel - 1, by omega⟩
    obtain ⟨hyes', hlexb⟩ := peek_eq ['('] true (by decide) hlex' rfl
    obtain ⟨-, hlexl, -⟩ := gettoken_cons hlexb
    have hclose : Next [')'] (.rparen :: (redirTokens rs ++ rest)) := rfl
    rw [if_pos trivial, parseblock]
    simp only [hyes']
    rw [if_neg (by decide)]
    refine (parseline_returns hline hlexl hclose (by omega)).bind ?_
    intro cmd s hlex ht
    rw [length_append, length_cons] at hfuel
    obtain ⟨hyesc, hlexc⟩ := peek_eq [')'] true (by decide) hlex rfl
    obtain ⟨-, hlexr, -⟩ := gettoken_cons hlexc
    simp only [hyesc]
    rw [if_neg (by decide), ← ht]
    exact parseredirs_returns hlexr (hrest.notNext (by decide)) (by omega)
  | simple rs args hargs =>
    rw [append_assoc] at hlex hfuel
    have hnext : ∀ toks : List Char, (∀ c ∈ ['|', ')', '&', ';'], c ∉ toks) →
        NotNext toks (args.flatMap Arg.tokens ++ rest) := by
      intro toks htoks
      cases args with
      | nil => exact hrest.notNext htoks
      | cons _ _ => rfl
    obtain ⟨hfound, hlex', -⟩ := peek_spec ['('] (by decide) hlex
    have hnot : (peek ['('] s).1 = false := by
      rw [hfound]
      cases rs with
      | nil => exact hnext ['('] (by decide)
      | cons r rs => cases hkind : r.kind <;> simp [redirTokens, Redir.tokens, hkind,
          RedirKind.token, Token.startsIn, Token.code]
    simp only [hnot]
    rw [if_neg Bool.false_ne_true]
    refine (parseredirs_returns hlex' (hnext _ (by decide)) (by omega)).bind ?_
    intro cmd s hlex ht
    rw [length_append] at hfuel
    have htexts : cmd.texts = simpleCmd rs [] := by
      rw [ht, simpleCmd, flatMap_nil, append_nil]
      rfl
    have hlength : (([] : List Arg) ++ args).length < MAXARGS := hargs
    exact parseargs_returns hlex hrest (by omega) hlength htexts
end

end Xv6.Shell
