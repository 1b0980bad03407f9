import Mathlib.Data.List.TakeWhile
import Mathlib.Tactic.Tauto
import Xv6.Shell.Grammar

/-!
# Tokens of the command line

`gettoken` takes the first token of a string, `peek` looks at its first character, and every string
has tokens.
-/

namespace Xv6.Shell

open List

-- Ahead of the instance that goes through all characters.
instance (priority := 1001) decidableChars (p : Char → Prop) [DecidablePred p] (l : List Char) :
    Decidable (∀ c ∈ l, p c) :=
  decidableBAll p l

variable {s : Ptr} {ts : List Token}

namespace Token

/-- What `gettoken` returns for a token. -/
def code : Token → Char
  | .word _ => 'a'
  | .less => '<'
  | .greater => '>'
  | .append => '+'
  | .bar => '|'
  | .amp => '&'
  | .semi => ';'
  | .lparen => '('
  | .rparen => ')'

/-- The token is one of the symbols that `peek` looks for. -/
def startsIn (toks : List Char) : Token → Bool
  | .word _ => false
  | .append => toks.contains '>'
  | t => toks.contains t.code

end Token

/-- The pointers enclose a word of the string `s`. -/
structure IsWord (s : Ptr) (span : Span) (w : List Char) : Prop where
  suffix : span.q <:+ s
  text : span.q = w ++ span.eq
  ne_nil : w ≠ []
  chars : ∀ x ∈ w, isWordChar x = true
  stop : ∀ x, span.eq.head? = some x → isWordChar x = false

/-- A word of a suffix is a word of the string. -/
theorem IsWord.mono {s' : Ptr} {span : Span} {w : List Char} (h : IsWord s' span w)
    (hs : s' <:+ s) : IsWord s span w :=
  { h with suffix := h.suffix.trans hs }

/-! ### Kinds of characters -/

variable {c : Char}

/-- No character of a word is a blank. -/
theorem not_blank_of_isWordChar (h : isWordChar c = true) : strchr whitespace c = false := by
  simp only [isWordChar, Bool.and_eq_true, Bool.not_eq_true'] at h
  exact h.1

/-- No character of a word is a symbol. -/
theorem not_symbol_of_isWordChar (h : isWordChar c = true) : strchr symbols c = false := by
  simp only [isWordChar, Bool.and_eq_true, Bool.not_eq_true'] at h
  exact h.2

variable {t : Token}

/-- The six symbols that are tokens on their own. -/
theorem single_eq_some (h : single c = some t) :
    (c = '<' ∧ t = .less) ∨ (c = '|' ∧ t = .bar) ∨ (c = '&' ∧ t = .amp) ∨ (c = ';' ∧ t = .semi) ∨
      (c = '(' ∧ t = .lparen) ∨ (c = ')' ∧ t = .rparen) := by
  unfold single at h
  split at h <;> simp_all

/-- How `gettoken` and `peek` see such a symbol. -/
theorem single_spec (h : single c = some t) (s : Ptr) :
    strchr whitespace c = false ∧ scan (c :: s) = (t.code, s) ∧ (∀ w, t ≠ .word w) ∧
      ∀ toks : List Char, (decide (c ≠ NUL) && strchr toks c) = t.startsIn toks := by
  rcases single_eq_some h with ⟨rfl, rfl⟩ | ⟨rfl, rfl⟩ | ⟨rfl, rfl⟩ | ⟨rfl, rfl⟩ | ⟨rfl, rfl⟩
    | ⟨rfl, rfl⟩
  all_goals
    refine ⟨by decide, by rfl, by simp, fun toks => ?_⟩
    simp [NUL, strchr, Token.startsIn, Token.code]

/-- A `peek` for one such symbol finds only its token. -/
theorem startsIn_single (h : single c = some t) :
    strchr symbols c = true ∧ ∀ u : Token, u.startsIn [c] = decide (u = t) := by
  rcases single_eq_some h with ⟨rfl, rfl⟩ | ⟨rfl, rfl⟩ | ⟨rfl, rfl⟩ | ⟨rfl, rfl⟩ | ⟨rfl, rfl⟩
    | ⟨rfl, rfl⟩
  all_goals
    refine ⟨by decide, fun u => ?_⟩
    cases u <;> simp [Token.startsIn, Token.code]

/-! ### The first token -/

/-- Skipping blanks keeps the tokens. -/
theorem Lexes.skip (h : Lexes s ts) : Lexes (s.dropWhile (strchr whitespace)) ts := by
  induction h with
  | nil => exact .nil
  | blank hc _ ih =>
    rwa [dropWhile_cons_of_pos hc]
  | single hc h =>
    rw [dropWhile_cons_of_neg (by rw [(single_spec hc []).1]; decide)]
    exact .single hc h
  | greater hs h => exact .greater hs h
  | append h => exact .append h
  | word hw hs h =>
    have hblank := not_blank_of_isWordChar (hw _ mem_cons_self)
    rw [cons_append, dropWhile_cons_of_neg (by rw [hblank]; decide)]
    exact .word hw hs h

/-- After the blanks comes no blank. -/
theorem head_skip (s : Ptr) (h : (s.dropWhile (strchr whitespace)).head? = some c) :
    strchr whitespace c = false := by
  have hhead := head?_dropWhile_not (strchr whitespace) s
  rw [h] at hhead
  simpa using hhead

/-- `gettoken` takes a word up to its end. -/
theorem scan_word {w s : List Char} (hw : ∀ x ∈ c :: w, isWordChar x = true)
    (hs : ∀ x, s.head? = some x → isWordChar x = false) : scan (c :: w ++ s) = ('a', s) := by
  have hsymbol := not_symbol_of_isWordChar (hw c mem_cons_self)
  simp only [strchr, symbols, contains_cons, contains_nil, Bool.or_false, Bool.or_eq_false_iff,
    beq_eq_false_iff_ne] at hsymbol
  have hdrop : (c :: w ++ s).dropWhile (fun c =>
      !strchr whitespace c && !strchr symbols c) = s := by
    have hall : (c :: w).dropWhile isWordChar = [] := dropWhile_eq_nil_iff.mpr hw
    have hrest : s.dropWhile isWordChar = s := by
      cases s with
      | nil => rfl
      | cons x s => exact dropWhile_cons_of_neg (by rw [hs x rfl]; decide)
    have happend : (c :: w ++ s).dropWhile isWordChar = s := by
      rw [dropWhile_append, hall, isEmpty_nil, if_pos rfl, hrest]
    exact happend
  rw [cons_append] at hdrop ⊢
  simp only [scan, hdrop]
  rw [if_neg (by simp [strchr]; tauto), if_neg (by tauto)]

/-- The first token of a string that does not start with a blank. -/
theorem scan_spec {q : Ptr} (h : Lexes q ts)
    (hq : ∀ c, q.head? = some c → strchr whitespace c = false) :
    (ts = [] ∧ q = []) ∨ ∃ t us eq, ts = t :: us ∧ scan q = (t.code, eq) ∧ Lexes eq us ∧ eq <:+ q ∧
        (∀ toks, (∀ c ∈ toks, strchr symbols c = true) →
          (decide (q.headD NUL ≠ NUL) && strchr toks (q.headD NUL)) = t.startsIn toks) ∧
        ∀ w, t = .word w → IsWord q ⟨q, eq⟩ w := by
  cases h with
  | nil => exact .inl ⟨rfl, rfl⟩
  | blank hc h => exact absurd (hq _ rfl) (by rw [hc]; decide)
  | @single c t s ts hc h =>
    obtain ⟨-, hscan, hword, hstarts⟩ := single_spec hc s
    exact .inr ⟨t, ts, s, rfl, hscan, h, suffix_cons c s, fun toks _ => hstarts toks,
      fun w hw => absurd hw (hword w)⟩
  | @greater s ts hs h =>
    refine .inr ⟨.greater, ts, s, rfl, ?_, h, suffix_cons _ s, fun toks _ => ?_, by simp⟩
    · cases s with
      | nil => rfl
      | cons c s =>
        have hc : c ≠ '>' := fun hc => hs (by rw [hc]; rfl)
        simp [scan, strchr, hc, Token.code]
    · simp [NUL, strchr, Token.startsIn, Token.code]
  | @append s ts h =>
    refine .inr ⟨.append, ts, s, rfl, rfl, h, ?_, fun toks _ => ?_, by simp⟩
    · exact (suffix_cons _ s).trans (suffix_cons _ _)
    · simp [NUL, strchr, Token.startsIn]
  | @word c w s ts hw hs h =>
    refine .inr ⟨.word (c :: w), ts, s, rfl, scan_word hw hs, h, suffix_append _ s, ?_, ?_⟩
    · intro toks htoks
      have hsymbol := not_symbol_of_isWordChar (hw c mem_cons_self)
      have hnot : strchr toks c = false := by
        rw [← Bool.not_eq_true]
        intro hmem
        have hin := htoks c (by simpa [strchr] using hmem)
        rw [hsymbol] at hin
        cases hin
      simp only [cons_append, headD_cons, hnot, Bool.and_false]
      rfl
    · rintro w' heq
      obtain rfl := Token.word.inj heq
      exact ⟨suffix_refl _, rfl, cons_ne_nil _ _, hw, hs⟩

/-- `peek` tells whether the next token starts with one of the symbols. -/
theorem peek_spec (toks : List Char) (htoks : ∀ c ∈ toks, strchr symbols c = true)
    (h : Lexes s ts) :
    (peek toks s).1 = ts.head?.any (Token.startsIn toks) ∧ Lexes (peek toks s).2 ts ∧
      (peek toks s).2 <:+ s := by
  refine ⟨?_, h.skip, dropWhile_suffix _⟩
  rcases scan_spec h.skip (fun c => head_skip s) with ⟨rfl, hq⟩
    | ⟨t, us, eq, rfl, -, -, -, hstarts, -⟩
  · simp [peek, hq]
  · rw [head?_cons, Option.any_some, ← hstarts toks htoks]
    rfl

/-- `gettoken` at the end of the line. -/
theorem gettoken_nil (h : Lexes s []) : (gettoken s).ret = NUL ∧ (gettoken s).rest = [] := by
  rcases scan_spec h.skip (fun c => head_skip s) with ⟨-, hq⟩ | ⟨t, us, eq, heq, -⟩
  · simp [gettoken, hq, scan]
  · cases heq

/-- `gettoken` takes the next token. -/
theorem gettoken_cons (h : Lexes s (t :: ts)) :
    (gettoken s).ret = t.code ∧ Lexes (gettoken s).rest ts ∧ (gettoken s).rest <:+ s ∧
      ∀ w, t = .word w → IsWord s (gettoken s).span w := by
  rcases scan_spec h.skip (fun c => head_skip s) with ⟨hnil, -⟩
    | ⟨t', us, eq, heq, hscan, hrest, hsuffix, -, hword⟩
  · cases hnil
  · cases heq
    have hq : s.dropWhile (strchr whitespace) <:+ s := dropWhile_suffix _
    simp only [gettoken, hscan]
    exact ⟨trivial, hrest.skip, (dropWhile_suffix _).trans (hsuffix.trans hq),
      fun w hw => (hword w hw).mono hq⟩

/-- Every string has tokens. -/
theorem exists_lexes (s : List Char) : ∃ ts, Lexes s ts := by
  -- the induction is on the length, since words and `>>` take several characters
  induction hlength : s.length using Nat.strong_induction_on generalizing s with
  | _ n ih =>
    cases s with
    | nil => exact ⟨[], .nil⟩
    | cons c s =>
      rw [length_cons] at hlength
      obtain ⟨ts, hts⟩ := ih s.length (by omega) s rfl
      by_cases hblank : strchr whitespace c = true
      · exact ⟨ts, .blank hblank hts⟩
      by_cases hword : isWordChar c = true
      · have hrest : (s.dropWhile isWordChar).length ≤ s.length := (dropWhile_suffix _).length_le
        obtain ⟨us, hus⟩ := ih _ (by omega) (s.dropWhile isWordChar) rfl
        refine ⟨.word (c :: s.takeWhile isWordChar) :: us, ?_⟩
        have hlexes : Lexes (c :: s.takeWhile isWordChar ++ s.dropWhile isWordChar)
            (.word (c :: s.takeWhile isWordChar) :: us) := by
          refine .word (fun x hx => ?_) (fun x hx => ?_) hus
          · rcases mem_cons.mp hx with rfl | hx
            · exact hword
            · exact mem_takeWhile_imp hx
          · have hhead := head?_dropWhile_not isWordChar s
            rw [hx] at hhead
            simpa using hhead
        rwa [cons_append, takeWhile_append_dropWhile] at hlexes
      by_cases hgreater : c = '>'
      · subst hgreater
        cases s with
        | nil => exact ⟨_, .greater (by simp) hts⟩
        | cons c s =>
          rw [length_cons] at hlength
          by_cases hc : c = '>'
          · subst hc
            obtain ⟨us, hus⟩ := ih s.length (by omega) s rfl
            exact ⟨_, .append hus⟩
          · exact ⟨_, .greater (by simpa using hc) hts⟩
      · -- the other symbols
        have hsymbol : strchr symbols c = true := by
          simp only [isWordChar, Bool.and_eq_true, Bool.not_eq_true'] at hword
          simpa [hblank] using hword
        obtain ⟨t, ht⟩ : ∃ t, single c = some t := by
          simp only [strchr, symbols, contains_eq_mem, mem_cons, not_mem_nil,
            or_false, decide_eq_true_eq] at hsymbol
          rcases hsymbol with rfl | rfl | rfl | rfl | rfl | rfl | rfl
          case inr.inr.inl => exact absurd rfl hgreater
          all_goals exact ⟨_, rfl⟩
        exact ⟨t :: ts, .single ht hts⟩

end Xv6.Shell
