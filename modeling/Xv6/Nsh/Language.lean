import Xv6.Nsh.Code
import Xv6.Shell.Theorems

/-!
# The common language of the two shells

Command lines of stages with `|` between them. A stage is made of words and then redirections, with
blanks between words, around operators and at the ends. `sh` parses such a line to the expected
commands.
-/

namespace Xv6.Nsh

open Shell List

/-- The operators of redirections. -/
inductive Op where
  | less
  | greater
  deriving DecidableEq

namespace Op

def char : Op → Char
  | .less => '<'
  | .greater => '>'

def kind : Op → RedirKind
  | .less => .input
  | .greater => .output

end Op

/-- A redirection with the blanks before and behind its operator. -/
structure Redirection where
  gap : List Char
  op : Op
  pre : List Char
  file : List Char

/-- A word with the blanks before it. -/
structure Spaced where
  gap : List Char
  word : List Char

/-- A command of a pipeline. -/
structure Stage where
  lead : List Char
  first : List Char
  more : List Spaced
  redirs : List Redirection
  trail : List Char

/-- A command line: the last stage and those before it. -/
structure CommandLine where
  init : List Stage
  last : Stage

def Redirection.text (r : Redirection) : List Char := r.gap ++ r.op.char :: (r.pre ++ r.file)

def Spaced.text (a : Spaced) : List Char := a.gap ++ a.word

namespace Stage

/-- The words of a stage with the blanks before them. -/
def wordsText (s : Stage) : List Char := s.lead ++ s.first ++ s.more.flatMap Spaced.text

def text (s : Stage) : List Char := s.wordsText ++ s.redirs.flatMap Redirection.text ++ s.trail

def words (s : Stage) : List (List Char) := s.first :: s.more.map Spaced.word

def files (s : Stage) : List (List Char) := s.redirs.map Redirection.file

/-- The command that a stage stands for. -/
def command (s : Stage) : Tree :=
  wrapAll (.exec s.words) (s.redirs.map fun r => ⟨r.op.kind, r.file⟩)

end Stage

namespace CommandLine

def stages (l : CommandLine) : List Stage := l.init ++ [l.last]

def text (l : CommandLine) : List Char := l.init.flatMap (fun s => s.text ++ ['|']) ++ l.last.text

def words (l : CommandLine) : List (List Char) := l.stages.flatMap Stage.words

def files (l : CommandLine) : List (List Char) := l.stages.flatMap Stage.files

/-- The number of words, those of redirections included. -/
def wordCount (l : CommandLine) : Nat := l.words.length + l.files.length

end CommandLine

/-- Blanks only. -/
def Blank (s : List Char) : Prop := ∀ c ∈ s, strchr whitespace c = true

/-- A word. -/
structure Word (w : List Char) : Prop where
  ne_nil : w ≠ []
  chars : ∀ c ∈ w, isWordChar c = true
  no_nul : NUL ∉ w

structure Redirection.WellFormed (r : Redirection) : Prop where
  gap : Blank r.gap
  pre : Blank r.pre
  file : Word r.file

structure Spaced.WellFormed (a : Spaced) : Prop where
  gap : Blank a.gap
  gap_ne_nil : a.gap ≠ []
  word : Word a.word

structure Stage.WellFormed (s : Stage) : Prop where
  lead : Blank s.lead
  first : Word s.first
  more : ∀ a ∈ s.more, a.WellFormed
  redirs : ∀ r ∈ s.redirs, r.WellFormed
  trail : Blank s.trail

def CommandLine.WellFormed (l : CommandLine) : Prop := ∀ s ∈ l.stages, s.WellFormed

/-! ### Tokens -/

section Tokens

variable {s : List Char} {ts : List Token} {b : List Char}

/-- Blanks in front make no token. -/
theorem Blank.lexes (hb : Blank b) (h : Lexes s ts) : Lexes (b ++ s) ts := by
  induction b with
  | nil => exact h
  | cons c b ih => exact .blank (hb c mem_cons_self) (ih fun x hx => hb x (mem_cons_of_mem c hx))

/-- No word goes on here. -/
def Ends (s : List Char) : Prop := ∀ x, s.head? = some x → isWordChar x = false

theorem Blank.ends (hb : Blank b) (h : Ends s) : Ends (b ++ s) := by
  cases b with
  | nil => exact h
  | cons c b =>
    intro x hx
    obtain rfl : c = x := by simpa using hx
    simp [isWordChar, hb c mem_cons_self]

theorem Blank.ends_of_ne_nil (hb : Blank b) (hne : b ≠ []) : Ends (b ++ s) := by
  cases b with
  | nil => exact absurd rfl hne
  | cons c b =>
    intro x hx
    obtain rfl : c = x := by simpa using hx
    simp [isWordChar, hb c mem_cons_self]

/-- A word that ends is one token. -/
theorem Word.lexes {w : List Char} (hw : Word w) (hs : Ends s) (h : Lexes s ts) :
    Lexes (w ++ s) (.word w :: ts) := by
  cases w with
  | nil => exact absurd rfl hw.ne_nil
  | cons c w => exact .word hw.chars hs h

theorem ends_op (op : Op) (s : List Char) : Ends (op.char :: s) := by
  intro x hx
  obtain rfl : op.char = x := by simpa using hx
  cases op <;> decide

/-- A redirection is two tokens. -/
theorem Redirection.WellFormed.lexes {r : Redirection} (hr : r.WellFormed) (hs : Ends s)
    (h : Lexes s ts) :
    Lexes (r.text ++ s) (r.op.kind.token :: .word r.file :: ts) := by
  have hfile : Lexes (r.pre ++ (r.file ++ s)) (.word r.file :: ts) :=
    hr.pre.lexes (hr.file.lexes hs h)
  have hop : Lexes (r.op.char :: (r.pre ++ (r.file ++ s)))
      (r.op.kind.token :: .word r.file :: ts) := by
    cases hkind : r.op with
    | less => exact .single rfl hfile
    | greater =>
      refine .greater (fun hhead => ?_) hfile
      -- behind the operator there is a blank or the file
      cases hpre : r.pre with
      | nil =>
        cases hword : r.file with
        | nil => exact hr.file.ne_nil hword
        | cons c w =>
          rw [hpre, hword] at hhead
          obtain rfl : c = '>' := by simpa using hhead
          exact absurd (hr.file.chars '>' (by rw [hword]; exact mem_cons_self)) (by decide)
      | cons c b =>
        rw [hpre] at hhead
        obtain rfl : c = '>' := by simpa using hhead
        exact absurd (hr.pre '>' (by rw [hpre]; exact mem_cons_self)) (by decide)
  have htext : r.text ++ s = r.gap ++ (r.op.char :: (r.pre ++ (r.file ++ s))) := by
    simp [Redirection.text]
  rw [htext]
  exact hr.gap.lexes hop

/-- Each of several is, and a word before them ends. -/
theorem redirs_lexes {rs : List Redirection} (hrs : ∀ r ∈ rs, r.WellFormed) (hs : Ends s)
    (h : Lexes s ts) :
    Lexes (rs.flatMap Redirection.text ++ s)
        (redirTokens (rs.map fun r => ⟨r.op.kind, r.file⟩) ++ ts) ∧
      Ends (rs.flatMap Redirection.text ++ s) := by
  induction rs with
  | nil => exact ⟨h, hs⟩
  | cons r rs ih =>
    obtain ⟨hlexes, hends⟩ := ih fun r' hr' => hrs r' (mem_cons_of_mem r hr')
    have hr := hrs r mem_cons_self
    rw [flatMap_cons, append_assoc]
    refine ⟨hr.lexes hends hlexes, ?_⟩
    rw [Redirection.text, append_assoc]
    exact hr.gap.ends (ends_op r.op _)

/-- Each further argument is one token. -/
theorem more_lexes {args : List Spaced} (hargs : ∀ a ∈ args, a.WellFormed) (hs : Ends s)
    (h : Lexes s ts) :
    Lexes (args.flatMap Spaced.text ++ s) (args.map (fun a => .word a.word) ++ ts) ∧
      Ends (args.flatMap Spaced.text ++ s) := by
  induction args with
  | nil => exact ⟨h, hs⟩
  | cons a args ih =>
    obtain ⟨hlexes, hends⟩ := ih fun a' ha' => hargs a' (mem_cons_of_mem a ha')
    have ha := hargs a mem_cons_self
    rw [flatMap_cons, append_assoc, Spaced.text, append_assoc]
    exact ⟨ha.gap.lexes (ha.word.lexes hends hlexes), ha.gap.ends_of_ne_nil ha.gap_ne_nil⟩

/-- The tokens of a stage. -/
def Stage.tokens (s : Stage) : List Token :=
  s.words.map .word ++ redirTokens (s.redirs.map fun r => ⟨r.op.kind, r.file⟩)

/-- The tokens of a stage are its words and redirections. -/
theorem Stage.WellFormed.lexes {st : Stage} (hst : st.WellFormed) (hs : Ends s) (h : Lexes s ts) :
    Lexes (st.text ++ s) (st.tokens ++ ts) := by
  have htrail := hst.trail.lexes h
  obtain ⟨hredirs, hends⟩ := redirs_lexes hst.redirs (hst.trail.ends hs) htrail
  obtain ⟨hmore, hends'⟩ := more_lexes hst.more hends hredirs
  have htext : st.text ++ s = st.lead ++ (st.first ++ (st.more.flatMap Spaced.text ++
      (st.redirs.flatMap Redirection.text ++ (st.trail ++ s)))) := by
    simp [Stage.text, Stage.wordsText]
  have htokens : st.tokens ++ ts = .word st.first :: (st.more.map (fun a => Token.word a.word) ++
      (redirTokens (st.redirs.map fun r => ⟨r.op.kind, r.file⟩) ++ ts)) := by
    simp [Stage.tokens, Stage.words]
  rw [htext, htokens]
  exact hst.lead.lexes (hst.first.lexes hends' hmore)

end Tokens

/-! ### The grammar -/

/-- Words with the redirections behind the last are arguments of the grammar. -/
theorem exists_args (ws : List (List Char)) (hne : ws ≠ []) (rs : List Redir) :
    ∃ args : List Arg, args.flatMap Arg.tokens = ws.map .word ++ redirTokens rs ∧
      args.map Arg.word = ws ∧ args.flatMap Arg.redirs = rs := by
  induction ws with
  | nil => exact absurd rfl hne
  | cons w ws ih =>
    by_cases hws : ws = []
    · subst hws
      exact ⟨[⟨w, rs⟩], by simp [Arg.tokens], rfl, by simp⟩
    · obtain ⟨args, htokens, hwords, hredirs⟩ := ih hws
      refine ⟨⟨w, []⟩ :: args, ?_, by rw [map_cons, hwords], ?_⟩
      · rw [flatMap_cons, htokens]
        rfl
      · rw [flatMap_cons, hredirs]
        rfl

/-- The grammar gives a stage its command. -/
theorem Stage.exec (st : Stage) (hlt : st.words.length < MAXARGS) : Exec st.tokens st.command := by
  obtain ⟨args, htokens, hwords, hredirs⟩ := exists_args st.words (cons_ne_nil _ _)
    (st.redirs.map fun r => ⟨r.op.kind, r.file⟩)
  have hexec := Exec.simple [] args (by rw [← hwords, length_map] at hlt; exact hlt)
  rwa [htokens, simpleCmd, hwords, hredirs] at hexec

variable {init : List Stage}

/-- It gives a pipeline the commands of its stages. -/
theorem exists_pipe {last : Stage} (hlt : ∀ st ∈ init ++ [last], st.words.length < MAXARGS) :
    ∃ t, Pipe (init.flatMap (fun st => st.tokens ++ [.bar]) ++ last.tokens) t ∧
      stages t = (init ++ [last]).map Stage.command := by
  have hcommand : ∀ st : Stage, stages st.command = [st.command] := by
    intro st
    rw [Stage.command]
    cases hrs : (st.redirs.map fun r => (⟨r.op.kind, r.file⟩ : Redir)).reverse with
    | nil =>
      rw [reverse_eq_nil_iff.mp hrs]
      rfl
    | cons r rs =>
      rw [reverse_eq_cons_iff] at hrs
      rw [hrs, ← wrapAll_append]
      rfl
  induction init with
  | nil => exact ⟨last.command, .last (last.exec (hlt last (by simp))), by rw [hcommand]; rfl⟩
  | cons st init ih =>
    obtain ⟨t, hpipe, ht⟩ := ih fun st' hst' => hlt st' (mem_cons_of_mem st hst')
    have hexec := st.exec (hlt st mem_cons_self)
    refine ⟨.pipe st.command t, ?_, ?_⟩
    · rw [flatMap_cons, append_assoc, append_assoc]
      exact .pipe hexec hpipe
    · rw [stages, hcommand, ht]
      rfl

theorem lexes_init (hinit : ∀ st ∈ init, st.WellFormed) {s : List Char}
    {ts : List Token} (h : Lexes s ts) :
    Lexes (init.flatMap (fun st => st.text ++ ['|']) ++ s)
      (init.flatMap (fun st => st.tokens ++ [.bar]) ++ ts) := by
  induction init with
  | nil => exact h
  | cons st init ih =>
    have hrest := ih fun st' hst' => hinit st' (mem_cons_of_mem st hst')
    rw [flatMap_cons, flatMap_cons, append_assoc, append_assoc, append_assoc, append_assoc]
    refine (hinit st mem_cons_self).lexes ?_ (.single rfl hrest)
    intro x hx
    obtain rfl : '|' = x := by simpa using hx
    decide

variable {l : CommandLine}

/-- The tokens of a line. -/
theorem CommandLine.lexes (hl : l.WellFormed) :
    Lexes l.text (l.init.flatMap (fun st => st.tokens ++ [.bar]) ++ l.last.tokens) := by
  have hlast : Lexes (l.last.text ++ []) (l.last.tokens ++ []) :=
    (hl l.last (by simp [stages])).lexes (nofun) .nil
  rw [append_nil, append_nil] at hlast
  exact lexes_init (fun st hst => hl st (mem_append_left _ hst)) hlast

/-! ### Characters -/

theorem Blank.no_nul {b : List Char} (hb : Blank b) : NUL ∉ b := fun hmem =>
  absurd (hb NUL hmem) (by decide)

theorem Stage.WellFormed.no_nul {st : Stage} (hst : st.WellFormed) : NUL ∉ st.text := by
  simp only [Stage.text, Stage.wordsText, mem_append, mem_flatMap, not_or]
  refine ⟨⟨⟨⟨hst.lead.no_nul, hst.first.no_nul⟩, ?_⟩, ?_⟩, hst.trail.no_nul⟩
  · rintro ⟨a, ha, hmem⟩
    rcases mem_append.mp hmem with hmem | hmem
    · exact (hst.more a ha).gap.no_nul hmem
    · exact (hst.more a ha).word.no_nul hmem
  · rintro ⟨r, hr, hmem⟩
    have hwf := hst.redirs r hr
    simp only [Redirection.text, mem_append, mem_cons] at hmem
    rcases hmem with hmem | hmem | hmem | hmem
    · exact hwf.gap.no_nul hmem
    · exact absurd hmem (by cases r.op <;> decide)
    · exact hwf.pre.no_nul hmem
    · exact hwf.file.no_nul hmem

theorem CommandLine.no_nul (hl : l.WellFormed) : NUL ∉ l.text := by
  intro hmem
  rcases mem_append.mp hmem with hmem | hmem
  · obtain ⟨st, hst, hmem⟩ := mem_flatMap.mp hmem
    rcases mem_append.mp hmem with hmem | hmem
    · exact (hl st (mem_append_left _ hst)).no_nul hmem
    · exact absurd (mem_singleton.mp hmem) (by decide)
  · exact (hl l.last (by simp [stages])).no_nul hmem

/-- `sh` parses a line to the commands of its stages. -/
theorem sh_parsecmd (hl : l.WellFormed) (hwords : l.wordCount < MAXARGS)
    {fuel : Nat} (hfuel : 4 * l.text.length + 4 ≤ fuel) :
    ∃ cmd buffer, Shell.parsecmd fuel l.text = .done (cmd, buffer) ∧
      stages (readCmd buffer cmd) = l.stages.map Stage.command := by
  have hlt : ∀ st ∈ l.init ++ [l.last], st.words.length < MAXARGS := by
    intro st hst
    have hle : st.words.length ≤ l.words.length := by
      obtain ⟨before, after, hsplit⟩ := append_of_mem hst
      rw [CommandLine.words, CommandLine.stages, hsplit, flatMap_append, flatMap_cons,
        length_append, length_append]
      omega
    simp only [CommandLine.wordCount] at hwords
    omega
  obtain ⟨t, hpipe, ht⟩ := exists_pipe hlt
  have hline : Line (l.init.flatMap (fun st => st.tokens ++ [.bar]) ++ l.last.tokens) t := by
    have hline := Line.last 0 hpipe
    rwa [replicate_zero, append_nil] at hline
  obtain ⟨cmd, buffer, hcall, hread⟩ := parsecmd_of_line (CommandLine.no_nul hl)
    (CommandLine.lexes hl) hline hfuel
  exact ⟨cmd, buffer, hcall, by rw [hread, ht]; rfl⟩

end Xv6.Nsh
