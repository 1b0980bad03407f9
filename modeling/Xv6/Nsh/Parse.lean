import Mathlib.Data.List.Induction
import Xv6.Nsh.Language
import Xv6.Nsh.Tables

/-!
# What `nsh` makes of a command line

The strings that `nsh` stores for a command line, in the order in which it stores them, and the
commands that point to them. The last word before an operator loses its last character unless there
are blanks between them.
-/

namespace Xv6.Nsh

open Shell List

/-! ### Storing strings -/

/-- The strings can be stored behind `xs` one after the other. -/
def FitsAll (xs : List (List Char)) : List (List Char) → Prop
  | [] => True
  | y :: ys => Fits xs y ∧ FitsAll (xs ++ [y]) ys

/-- Strings fit if the first ones do and the others fit behind them. -/
theorem fitsAll_append {xs ys zs : List (List Char)} :
    FitsAll xs (ys ++ zs) ↔ FitsAll xs ys ∧ FitsAll (xs ++ ys) zs := by
  induction ys generalizing xs with
  | nil => simp [FitsAll]
  | cons y ys ih => simp [FitsAll, ih, and_assoc]

theorem slots_append (xs ys zs : List (List Char)) :
    slots xs (ys ++ zs) = slots xs ys ++ slots (xs ++ ys) zs := by
  induction ys generalizing xs with
  | nil => simp [slots]
  | cons y ys ih => simp [slots, ih]

theorem length_slots (xs ys : List (List Char)) : (slots xs ys).length = ys.length := by
  induction ys generalizing xs with
  | nil => rfl
  | cons y ys ih => rw [slots, length_cons, length_cons, ih]

/-- The tables hold these tokens and files. -/
structure Stored (s : State) (xs fs : List (List Char)) : Prop where
  tokens : Holds s.tokens xs
  files : Holds s.files fs

/-- If there is room, the call returns a value with `V` and leaves `xs` and `fs` in the tables. -/
def Stores {γ : Type} (o : Option (γ × State)) (room : Prop) (V : γ → Prop)
    (xs fs : List (List Char)) : Prop :=
  (room ∧ ∃ v s, o = some (v, s) ∧ V v ∧ Stored s xs fs) ∨ (¬ room ∧ o = none)

section Stores

variable {γ δ : Type} {s : State} {xs fs xs' fs' : List (List Char)} {x : List Char}

variable {V : γ → Prop}

/-- Returning stores nothing. -/
theorem Stores.done {v : γ} (hv : V v) (hs : Stored s xs fs) : Stores (some (v, s)) True V xs fs :=
  .inl ⟨trivial, v, s, rfl, hv, hs⟩

variable {o : Option (γ × State)}

/-- Calls in sequence need the room of both. -/
theorem Stores.bind {f : γ × State → Option (δ × State)}
    {room : Prop} (room' : Prop) {V' : δ → Prop} (ho : Stores o room V xs fs)
    (hf : ∀ v s, V v → Stored s xs fs → Stores (f (v, s)) room' V' xs' fs') :
    Stores (o >>= f) (room ∧ room') V' xs' fs' := by
  rcases ho with ⟨hroom, v, s, rfl, hv, hs⟩ | ⟨hroom, rfl⟩
  · rcases hf v s hv hs with ⟨hroom', hrest⟩ | ⟨hroom', hnone⟩
    · exact .inl ⟨⟨hroom, hroom'⟩, hrest⟩
    · exact .inr ⟨fun h => hroom' h.2, hnone⟩
  · exact .inr ⟨fun h => hroom h.1, rfl⟩

theorem Stores.congr {room room' : Prop} {V V' : γ → Prop}
    (h : Stores o room V xs fs) (hroom : room ↔ room') (hV : ∀ v, V v → V' v) :
    Stores o room' V' xs fs := by
  rcases h with ⟨hr, v, s, ho, hv, hs⟩ | ⟨hr, ho⟩
  · exact .inl ⟨hroom.mp hr, v, s, ho, hV v hv, hs⟩
  · exact .inr ⟨fun h => hr (hroom.mpr h), ho⟩

/-- A new token is the last of its table. -/
theorem Stored.addToken (h : Stored s xs fs) (hx : NUL ∉ x) :
    Stores (s.addToken x) (Fits xs x) (· = .token (start xs)) (xs ++ [x]) fs := by
  rcases h.tokens.add hx with ⟨hfits, t, hadd, hholds⟩ | ⟨hfits, hadd⟩
  · refine .inl ⟨hfits, .token (start xs), { s with tokens := t }, ?_, rfl, ⟨hholds, h.files⟩⟩
    rw [State.addToken, hadd]
    rfl
  · refine .inr ⟨hfits, ?_⟩
    rw [State.addToken, hadd]
    rfl

/-- A new file is the last of its table. -/
theorem Stored.addFile (h : Stored s xs fs) (hx : NUL ∉ x) :
    Stores (s.addFile x) (Fits fs x) (· = .file (start fs)) xs (fs ++ [x]) := by
  rcases h.files.add hx with ⟨hfits, t, hadd, hholds⟩ | ⟨hfits, hadd⟩
  · refine .inl ⟨hfits, .file (start fs), { s with files := t }, ?_, rfl, ⟨h.tokens, hholds⟩⟩
    rw [State.addFile, hadd]
    rfl
  · refine .inr ⟨hfits, ?_⟩
    rw [State.addFile, hadd]
    rfl

end Stores

/-! ### Characters -/

variable {p : Char → Bool}

theorem splitLast_eq_none {s : List Char} (h : ∀ c ∈ s, p c = false) : splitLast p s = none := by
  induction s with
  | nil => rfl
  | cons c s ih =>
    rw [splitLast, ih fun x hx => h x (mem_cons_of_mem c hx)]
    simp [h c mem_cons_self]

variable {c : Char}

/-- The last such character is found behind all others. -/
theorem splitLast_append (before : List Char) {after : List Char}
    (hc : p c = true) (h : ∀ x ∈ after, p x = false) :
    splitLast p (before ++ c :: after) = some (before, c, after) := by
  induction before with
  | nil =>
    rw [nil_append, splitLast, splitLast_eq_none h]
    simp [hc]
  | cons d before ih => rw [cons_append, splitLast, ih]

variable {b : List Char}

theorem Blank.skip (hb : Blank b) (s : List Char) : skipBlanks (b ++ s) = skipBlanks s := by
  induction b with
  | nil => rfl
  | cons c b ih =>
    rw [cons_append, skipBlanks, dropWhile_cons_of_pos (hb c mem_cons_self)]
    exact ih fun x hx => hb x (mem_cons_of_mem c hx)

/-- Characters that `nsh` takes for a token. -/
structure Solid (w : List Char) : Prop where
  ne_nil : w ≠ []
  chars : ∀ c ∈ w, strchr whitespace c = false
  no_nul : NUL ∉ w

variable {w : List Char}

/-- A word has no blanks. -/
theorem Word.solid (hw : Word w) : Solid w :=
  ⟨hw.ne_nil, fun c hc => not_blank_of_isWordChar (hw.chars c hc), hw.no_nul⟩

/-- Nor has a word without its last character. -/
theorem Word.dropLast_solid (hw : Word w) (hne : w.dropLast ≠ []) : Solid w.dropLast :=
  ⟨hne, fun c hc => hw.solid.chars c (dropLast_subset w hc),
    fun hmem => hw.no_nul (dropLast_subset w hmem)⟩

/-- A blank follows, or nothing. -/
def AtBlank (s : List Char) : Prop := ∀ c, s.head? = some c → strchr whitespace c = true

theorem Blank.atBlank (hb : Blank b) : AtBlank b := by
  cases b with
  | nil => exact nofun
  | cons d b =>
    intro c hc
    obtain rfl : d = c := by simpa using hc
    exact hb d mem_cons_self

theorem Solid.skip (hw : Solid w) (s : List Char) : skipBlanks (w ++ s) = w ++ s := by
  cases w with
  | nil => exact absurd rfl hw.ne_nil
  | cons c w =>
    rw [skipBlanks, cons_append, dropWhile_cons_of_neg (by rw [hw.chars c mem_cons_self]; decide)]

/-- `gettoken` cuts at the first blank. -/
theorem Solid.split {w s : List Char} (hw : Solid w) (hs : AtBlank s) :
    splitToken (w ++ s) = (w, s) := by
  have hchars : ∀ c ∈ w, (!strchr whitespace c) = true := fun c hc => by rw [hw.chars c hc]; rfl
  have htake : s.takeWhile (fun c => !strchr whitespace c) = [] := by
    cases s with
    | nil => rfl
    | cons c s => exact takeWhile_cons_of_neg (by rw [hs c rfl]; decide)
  have hdrop : s.dropWhile (fun c => !strchr whitespace c) = s := by
    cases s with
    | nil => rfl
    | cons c s => exact dropWhile_cons_of_neg (by rw [hs c rfl]; decide)
  rw [splitToken, takeWhile_append_of_pos hchars, htake, append_nil,
    dropWhile_append_of_pos hchars, hdrop]

/-! ### The words of a stage -/

/-- The empty string that `nsh` stores for blanks at the end, unless a space comes next. -/
def extra (b : List Char) (stop : Char) : List (List Char) :=
  if b ≠ [] ∧ stop ≠ ' ' then [[]] else []

section Args

variable {s : State} {xs fs : List (List Char)} {stop : Char} {argv : List Ref}

theorem parseargs_nil (fuel : Nat) : parseargs stop (fuel + 1) [] argv s = some (argv, s) := rfl

/-- One round of the loop with a word. -/
theorem parseargs_word {gap w rest : List Char} (fuel : Nat) (hgap : Blank gap) (hw : Solid w)
    (hrest : AtBlank rest) :
    parseargs stop (fuel + 1) (gap ++ (w ++ rest)) argv s = (do
      let (arg, s) ← s.addToken w
      parseargs stop fuel rest (argv ++ [arg]) s) := by
  obtain ⟨c, w', rfl⟩ := exists_cons_of_ne_nil hw.ne_nil
  have hne : gap ++ (c :: w' ++ rest) ≠ [] := by simp
  have hc : c ≠ ' ' := by
    rintro rfl
    exact absurd (hw.chars ' ' mem_cons_self) (by decide)
  rw [parseargs, if_neg hne]
  simp only [hgap.skip, hw.skip, hw.split hrest]
  rw [if_pos (by simpa using hc)]

/-- The loop over blanks at the end. -/
theorem parseargs_blank {fuel : Nat} (hb : Blank b) (hs : Stored s xs fs) (hfuel : 2 ≤ fuel) :
    Stores (parseargs stop fuel b argv s) (FitsAll xs (extra b stop))
      (· = argv ++ (slots xs (extra b stop)).map .token) (xs ++ extra b stop) fs := by
  obtain ⟨fuel, rfl⟩ : ∃ n, fuel = n + 2 := ⟨fuel - 2, by omega⟩
  by_cases hnil : b = []
  · subst hnil
    have hextra : extra [] stop = [] := by simp [extra]
    rw [hextra, parseargs_nil, append_nil]
    exact .done (by simp [slots]) hs
  · have hskip : skipBlanks b = [] := by
      have hskip := hb.skip []
      rwa [append_nil] at hskip
    rw [parseargs, if_neg hnil]
    simp only [hskip]
    by_cases hstop : stop = ' '
    · have hextra : extra b stop = [] := by simp [extra, hstop]
      rw [hextra, if_neg (by simpa using hstop), append_nil]
      exact .done (by simp [slots]) hs
    · have hextra : extra b stop = [[]] := by simp [extra, hstop, hnil]
      rw [hextra, if_pos (by simpa using hstop)]
      refine ((hs.addToken not_mem_nil).bind True ?_).congr ?_ fun v hv => hv
      · rintro v s rfl hs
        exact .done (by simp [slots]) hs
      · simp [FitsAll]

/-- Words with the blanks before them, as `nsh` sees them. -/
structure Tokens (items : List Spaced) : Prop where
  gaps : ∀ a ∈ items, Blank a.gap
  words : ∀ a ∈ items, Solid a.word
  apart : ∀ a ∈ items.tail, a.gap ≠ []

variable {items : List Spaced}

theorem Tokens.tail {a : Spaced} (h : Tokens (a :: items)) : Tokens items where
  gaps a' ha' := h.gaps a' (mem_cons_of_mem a ha')
  words a' ha' := h.words a' (mem_cons_of_mem a ha')
  apart a' ha' := h.apart a' (mem_of_mem_tail ha')

theorem Tokens.atBlank {a : Spaced} (h : Tokens (a :: items))
    (hb : Blank b) : AtBlank (items.flatMap Spaced.text ++ b) := by
  cases items with
  | nil => exact hb.atBlank
  | cons a' items =>
    obtain ⟨c, gap, hgap⟩ := exists_cons_of_ne_nil (h.apart a' mem_cons_self)
    intro x hx
    rw [flatMap_cons, Spaced.text, hgap] at hx
    obtain rfl : c = x := by simpa using hx
    exact h.tail.gaps a' mem_cons_self c (by rw [hgap]; exact mem_cons_self)

/-- The loop over the words of a stage. -/
theorem parseargs_items (stop : Char) (argv : List Ref) {fuel : Nat} (hitems : Tokens items)
    (hb : Blank b) (hs : Stored s xs fs)
    (hfuel : (items.flatMap Spaced.text ++ b).length + 2 ≤ fuel) :
    Stores (parseargs stop fuel (items.flatMap Spaced.text ++ b) argv s)
      (FitsAll xs (items.map Spaced.word ++ extra b stop))
      (· = argv ++ (slots xs (items.map Spaced.word ++ extra b stop)).map .token)
      (xs ++ (items.map Spaced.word ++ extra b stop)) fs := by
  induction items generalizing s xs argv fuel with
  | nil => exact parseargs_blank hb hs (by omega)
  | cons a items ih =>
    have hword := hitems.words a mem_cons_self
    obtain ⟨fuel, rfl⟩ : ∃ n, fuel = n + 1 := ⟨fuel - 1, by omega⟩
    have htext : (a :: items).flatMap Spaced.text ++ b =
        a.gap ++ (a.word ++ (items.flatMap Spaced.text ++ b)) := by
      simp [Spaced.text]
    have hlength : (items.flatMap Spaced.text ++ b).length + 2 ≤ fuel := by
      have hpos := length_pos_iff.mpr hword.ne_nil
      rw [htext, length_append, length_append] at hfuel
      omega
    rw [htext, parseargs_word fuel (hitems.gaps a mem_cons_self) hword (hitems.atBlank hb)]
    refine ((hs.addToken hword.no_nul).bind
      (FitsAll (xs ++ [a.word]) (items.map Spaced.word ++ extra b stop)) ?_).congr ?_ fun v hv => hv
    · rintro v s rfl hs
      have hstores := ih (argv ++ [.token (start xs)]) hitems.tail hs hlength
      simp only [append_assoc, singleton_append] at hstores
      refine hstores.congr Iff.rfl fun v hv => ?_
      rw [hv]
      simp [slots]
    · rfl

end Args

/-! ### One stage -/

/-- The list with its last string one character shorter. -/
def cutLast : List (List Char) → List (List Char)
  | [] => []
  | [w] => [w.dropLast]
  | w :: ws => w :: cutLast ws

theorem cutLast_append (ws : List (List Char)) (w : List Char) :
    cutLast (ws ++ [w]) = ws ++ [w.dropLast] := by
  induction ws with
  | nil => rfl
  | cons w' ws ih =>
    cases ws with
    | nil => rfl
    | cons w'' ws => exact congrArg (w' :: ·) ih

namespace Stage

/-- The words of a stage with the blanks before them. -/
def items (st : Stage) : List Spaced := ⟨st.lead, st.first⟩ :: st.more

theorem wordsText_eq (st : Stage) : st.wordsText = st.items.flatMap Spaced.text := by
  simp [wordsText, items, Spaced.text]

theorem words_eq (st : Stage) : st.words = st.items.map Spaced.word := rfl

/-- The strings that `nsh` stores for the words of a stage, where `tail` is what follows them up to
and including `*_endofcmd`. -/
def storedWords (st : Stage) (tail : List Char) : List (List Char) :=
  if tail = [] then
    if st.lead = [] ∧ st.more = [] ∧ st.first.length = 1 then [] else cutLast st.words
  else st.words ++ extra tail.dropLast (tail.getLastD NUL)

theorem WellFormed.tokens {st : Stage} (hst : st.WellFormed) : Tokens st.items where
  gaps := forall_mem_cons.mpr ⟨hst.lead, fun a ha => (hst.more a ha).gap⟩
  words := forall_mem_cons.mpr ⟨hst.first.solid, fun a ha => (hst.more a ha).word.solid⟩
  apart a ha := (hst.more a ha).gap_ne_nil

theorem WellFormed.items_word {st : Stage} (hst : st.WellFormed) {a : Spaced} (ha : a ∈ st.items) :
    Word a.word := by
  rcases mem_cons.mp ha with rfl | ha
  · exact hst.first
  · exact (hst.more a ha).word

end Stage

variable {front : List Spaced}

variable {a : Spaced}

theorem Tokens.append_left (h : Tokens (front ++ [a])) : Tokens front where
  gaps a' ha' := h.gaps a' (mem_append_left _ ha')
  words a' ha' := h.words a' (mem_append_left _ ha')
  apart a' ha' := by
    cases front with
    | nil => cases ha'
    | cons _ _ => exact h.apart a' (mem_append_left _ ha')

theorem Tokens.set_last
    (h : Tokens (front ++ [a])) (hw : Solid w) : Tokens (front ++ [⟨a.gap, w⟩]) where
  gaps a' ha' := by
    rcases mem_append.mp ha' with ha' | ha'
    · exact h.gaps a' (mem_append_left _ ha')
    · obtain rfl := mem_singleton.mp ha'
      exact h.gaps a (mem_append_right _ mem_cons_self)
  words a' ha' := by
    rcases mem_append.mp ha' with ha' | ha'
    · exact h.words a' (mem_append_left _ ha')
    · obtain rfl := mem_singleton.mp ha'
      exact hw
  apart a' ha' := by
    cases front with
    | nil => cases ha'
    | cons _ _ =>
      rcases mem_append.mp ha' with ha' | ha'
      · exact h.apart a' (mem_append_left _ ha')
      · obtain rfl := mem_singleton.mp ha'
        exact h.apart a (mem_append_right _ mem_cons_self)

variable {α : Type}

theorem exists_concat {l : List α} (h : l ≠ []) : ∃ front a, l = front ++ [a] :=
  ⟨_, _, (dropLast_concat_getLast h).symm⟩

variable {st : Stage}

theorem lost_iff (hfront : st.items = front ++ [a]) :
    st.lead = [] ∧ st.more = [] ∧ st.first.length = 1 ↔
      front = [] ∧ a.gap = [] ∧ a.word.length = 1 := by
  cases front with
  | nil =>
    obtain ⟨rfl, hmore⟩ := List.cons.inj hfront
    simp [hmore]
  | cons a' front =>
    obtain ⟨-, hmore⟩ := List.cons.inj hfront
    simp [hmore]

/-- The words of a stage whose last word goes up to `*_endofcmd`. -/
theorem exists_body_cut (hst : st.WellFormed) : ∃ items b, Tokens items ∧ Blank b ∧
      st.wordsText.dropLast = items.flatMap Spaced.text ++ b ∧
      items.map Spaced.word ++ extra b (st.wordsText.getLastD NUL) = st.storedWords [] := by
  obtain ⟨front, a, hfront⟩ := exists_concat (show st.items ≠ [] from cons_ne_nil _ _)
  have hword : Word a.word := hst.items_word (by simp [hfront])
  have htokens := hst.tokens
  obtain ⟨w, c, hw⟩ := exists_concat hword.ne_nil
  have htext : st.wordsText = front.flatMap Spaced.text ++ a.gap ++ w ++ [c] := by
    rw [st.wordsText_eq, hfront]
    simp [Spaced.text, hw]
  have hc : c ≠ ' ' := by
    rintro rfl
    have hchar := hword.solid.chars ' ' (by simp [hw])
    cases hchar
  have hcut : cutLast st.words = front.map Spaced.word ++ [w] := by
    rw [st.words_eq, hfront, map_append, map_singleton, cutLast_append, hw, dropLast_concat]
  have hlost := lost_iff hfront
  rw [hw, length_append, length_singleton] at hlost
  rw [hfront] at htokens
  rw [htext, dropLast_concat, getLastD_concat, Stage.storedWords, if_pos rfl, hcut]
  by_cases hempty : w = []
  · subst hempty
    refine ⟨front, a.gap, htokens.append_left, htokens.gaps a (by simp), append_nil _, ?_⟩
    by_cases hgap : a.gap = []
    · -- only the first word can follow nothing
      have hfrontnil : front = [] := by
        cases front with
        | nil => rfl
        | cons a' front => exact absurd hgap (htokens.apart a (by simp))
      rw [if_pos (hlost.mpr ⟨hfrontnil, hgap, rfl⟩), hfrontnil]
      simp [extra, hgap]
    · rw [if_neg fun h => hgap (hlost.mp h).2.1]
      simp [extra, hgap, hc]
  · have hsolid : Solid w := by
      have hsolid := hword.dropLast_solid (by rw [hw, dropLast_concat]; exact hempty)
      rwa [hw, dropLast_concat] at hsolid
    have hlength := length_pos_iff.mpr hempty
    refine ⟨front ++ [⟨a.gap, w⟩], [], htokens.set_last hsolid, by simp [Blank], ?_, ?_⟩
    · simp [Spaced.text]
    · rw [if_neg fun h => by have := (hlost.mp h).2.2; omega]
      simp [extra]

variable {tail : List Char}

/-- The body of a stage is made of the strings stored for it, with blanks between. -/
theorem exists_body (hst : st.WellFormed) (htail : Blank tail.dropLast) :
    ∃ items b, Tokens items ∧ Blank b ∧
      (st.wordsText ++ tail).dropLast = items.flatMap Spaced.text ++ b ∧
      items.map Spaced.word ++ extra b ((st.wordsText ++ tail).getLastD NUL) =
        st.storedWords tail := by
  by_cases hnil : tail = []
  · rw [hnil, append_nil]
    exact exists_body_cut hst
  · obtain ⟨b, c, rfl⟩ := exists_concat hnil
    rw [dropLast_concat] at htail
    refine ⟨st.items, b, hst.tokens, htail, ?_, ?_⟩
    · rw [← append_assoc, dropLast_concat, st.wordsText_eq]
    · rw [← append_assoc, getLastD_concat, Stage.storedWords, if_neg hnil,
        dropLast_concat, getLastD_concat, st.words_eq]

/-! ### Redirections -/

/-- What `nsh` stores for a file, with `tail` behind it up to `*_endofcmd`. -/
def storedFile (file tail : List Char) : List Char := if tail = [] then file.dropLast else file

/-- What follows before the next redirection. -/
def nextGap : List Redirection → List Char → List Char
  | [], tail => tail
  | r :: _, _ => r.gap

/-- The strings that `nsh` stores for the files of a stage. -/
def storedFiles : List Redirection → List Char → List (List Char)
  | [], _ => []
  | r :: rs, tail => storedFile r.file (nextGap rs tail) :: storedFiles rs tail

section

variable (rs : List Redirection)
include rs

theorem nextGap_append (r : Redirection) (tail : List Char) :
    nextGap (rs ++ [r]) tail = nextGap rs r.gap := by
  cases rs <;> rfl

theorem storedFiles_append (r : Redirection) (tail : List Char) :
    storedFiles (rs ++ [r]) tail = storedFiles rs r.gap ++ [storedFile r.file tail] := by
  induction rs with
  | nil => rfl
  | cons r' rs ih => rw [cons_append, storedFiles, ih, nextGap_append]; rfl

theorem length_storedFiles (tail : List Char) : (storedFiles rs tail).length = rs.length := by
  induction rs with
  | nil => rfl
  | cons r rs ih => rw [storedFiles, length_cons, length_cons, ih]

end

/-- A command with redirections to some files around it. -/
def wrapRefs {α : Type} (cmd : Cmd α) (rs : List Redirection) (files : List α) : Cmd α :=
  (rs.zip files).foldl (fun cmd x => .redir cmd x.2 x.1.op.kind.mode x.1.op.kind.fd) cmd

variable {rs : List Redirection}

theorem wrapRefs_append (cmd : Cmd α) {files : List α}
    (r : Redirection) (file : α) (h : rs.length = files.length) :
    wrapRefs cmd (rs ++ [r]) (files ++ [file]) =
      .redir (wrapRefs cmd rs files) file r.op.kind.mode r.op.kind.fd := by
  rw [wrapRefs, zip_append h, foldl_append]
  rfl

/-- Not an operator. -/
def Plain (c : Char) : Prop := c ≠ '|' ∧ c ≠ '<' ∧ c ≠ '>'

/-- A blank is no operator. -/
theorem plain_of_blank (h : strchr whitespace c = true) : Plain c := by
  refine ⟨?_, ?_, ?_⟩ <;> (rintro rfl; exact absurd h (by decide))

/-- Nor is a character of a word. -/
theorem plain_of_isWordChar (h : isWordChar c = true) : Plain c := by
  refine ⟨?_, ?_, ?_⟩ <;> (rintro rfl; exact absurd h (by decide))

/-- What follows a stage or a part of it, up to and including `*_endofcmd`. -/
structure Tail (tail : List Char) : Prop where
  blank : Blank tail.dropLast
  plain : ∀ c ∈ tail, Plain c

theorem Blank.isTail (hb : Blank b) : Tail b :=
  ⟨fun c hc => hb c (dropLast_subset b hc), fun c hc => plain_of_blank (hb c hc)⟩

/-- There is no operator among the words of a stage. -/
theorem Stage.WellFormed.plain (hst : st.WellFormed) : ∀ c ∈ st.wordsText, Plain c := by
  intro c hc
  rw [st.wordsText_eq] at hc
  obtain ⟨a, ha, hc⟩ := mem_flatMap.mp hc
  rcases mem_append.mp hc with hc | hc
  · exact plain_of_blank (hst.tokens.gaps a ha c hc)
  · exact plain_of_isWordChar ((hst.items_word ha).chars c hc)

variable {r : Redirection}

/-- Nor behind that of a redirection. -/
theorem Redirection.WellFormed.plain (hr : r.WellFormed)
    (htail : Tail tail) : ∀ c ∈ r.pre ++ r.file ++ tail, Plain c := by
  intro c hc
  rcases mem_append.mp hc with hc | hc
  · rcases mem_append.mp hc with hc | hc
    · exact plain_of_blank (hr.pre c hc)
    · exact plain_of_isWordChar (hr.file.chars c hc)
  · exact htail.plain c hc

/-- The file of a redirection, which loses a character if nothing follows. -/
theorem file_eq (hr : r.WellFormed) (htail : Tail tail) :
    (splitToken (skipBlanks (r.pre ++ r.file ++ tail).dropLast)).1 = storedFile r.file tail := by
  by_cases hnil : tail = []
  · obtain ⟨w, c, hw⟩ := exists_concat hr.file.ne_nil
    have hdrop : (r.pre ++ r.file ++ tail).dropLast = r.pre ++ w := by
      rw [hnil, hw, append_nil, ← append_assoc, dropLast_concat]
    rw [storedFile, if_pos hnil, hdrop, hr.pre.skip, hw, dropLast_concat]
    by_cases hempty : w = []
    · subst hempty
      rfl
    · have hsolid := hr.file.dropLast_solid (by rw [hw, dropLast_concat]; exact hempty)
      rw [hw, dropLast_concat] at hsolid
      have hsplit := hsolid.split (s := []) (nofun)
      have hskip := hsolid.skip []
      rw [append_nil] at hsplit hskip
      rw [hskip, hsplit]
  · obtain ⟨b, c, hb⟩ := exists_concat hnil
    have hblank := htail.blank
    rw [hb, dropLast_concat] at hblank
    rw [storedFile, if_neg hnil, hb, ← append_assoc, dropLast_concat, append_assoc,
      hr.pre.skip, hr.file.solid.skip, hr.file.solid.split hblank.atBlank]

theorem storedFile_no_nul (hr : r.WellFormed) (tail : List Char) :
    NUL ∉ storedFile r.file tail := by
  rw [storedFile]
  split
  · exact fun hmem => hr.file.no_nul (dropLast_subset _ hmem)
  · exact hr.file.no_nul

/-! ### One stage -/

section Stage

variable {st : Stage} {s : State} {xs fs : List (List Char)}

variable {tail : List Char}

/-- No `|` is left in a stage. -/
theorem stage_no_bar (hst : st.WellFormed) (hrs : ∀ r ∈ rs, r.WellFormed) (htail : Tail tail) :
    ∀ c ∈ st.wordsText ++ rs.flatMap Redirection.text ++ tail, decide (c = '|') = false := by
  intro c hc
  rw [decide_eq_false_iff_not]
  rcases mem_append.mp hc with hc | hc
  · rcases mem_append.mp hc with hc | hc
    · exact (hst.plain c hc).1
    · obtain ⟨r, hr, hc⟩ := mem_flatMap.mp hc
      simp only [Redirection.text, mem_append, mem_cons] at hc
      rcases hc with hc | hc | hc | hc
      · exact (plain_of_blank ((hrs r hr).gap c hc)).1
      · subst hc
        cases r.op <;> decide
      · exact (plain_of_blank ((hrs r hr).pre c hc)).1
      · exact (plain_of_isWordChar ((hrs r hr).file.chars c hc)).1
  · exact (htail.plain c hc).1

theorem Plain.not_redir (h : Plain c) : (decide (c = '<') || decide (c = '>')) = false := by
  simp [h.2.1, h.2.2]

/-- The strings that are stored for the words of a stage. -/
def wordsOf (st : Stage) (rs : List Redirection) (tail : List Char) : List (List Char) :=
  st.storedWords (nextGap rs tail)

theorem wordsOf_append (st : Stage) (rs : List Redirection) (r : Redirection) (tail : List Char) :
    wordsOf st (rs ++ [r]) tail = wordsOf st rs r.gap := by
  rw [wordsOf, nextGap_append]
  rfl

/-- Both branches open the file as the operator says. -/
theorem redir_branch {inner : Cmd Ref} {file : Ref} (op : Op) :
    (if op.char = '<' then (pure (.redir inner file O_RDONLY 0, s) : Option (Cmd Ref × State))
      else pure (.redir inner file (O_WRONLY ||| O_CREATE) 1, s)) =
      some (.redir inner file op.kind.mode op.kind.fd, s) := by
  cases op <;> rfl

/-- `parsecmd` on one stage. -/
theorem parsecmd_stage {fuel : Nat}
    (hst : st.WellFormed) (hrs : ∀ r ∈ rs, r.WellFormed) (htail : Tail tail)
    (hs : Stored s xs fs)
    (hfuel : (st.wordsText ++ rs.flatMap Redirection.text ++ tail).length + 3 ≤ fuel) :
    Stores (parsecmd fuel (st.wordsText ++ rs.flatMap Redirection.text ++ tail) s)
      ((FitsAll xs (wordsOf st rs tail) ∧ (wordsOf st rs tail).length < MAXARGS) ∧
        FitsAll fs (storedFiles rs tail))
      (· = wrapRefs (.exec ((slots xs (wordsOf st rs tail)).map .token)) rs
        ((slots fs (storedFiles rs tail)).map .file))
      (xs ++ wordsOf st rs tail) (fs ++ storedFiles rs tail) := by
  obtain ⟨fuel, rfl⟩ : ∃ n, fuel = n + 1 := ⟨fuel - 1, by omega⟩
  have hbar := splitLast_eq_none (stage_no_bar hst hrs htail)
  -- redirections are found from the last one on
  induction rs using List.reverseRecOn generalizing tail fuel with
  | nil =>
    rw [flatMap_nil, append_nil] at hfuel hbar ⊢
    have hredir : splitLast (fun c => decide (c = '<') || decide (c = '>'))
        (st.wordsText ++ tail) = none := by
      refine splitLast_eq_none fun c hc => ?_
      rcases mem_append.mp hc with hc | hc
      · exact (hst.plain c hc).not_redir
      · exact (htail.plain c hc).not_redir
    obtain ⟨items, b, hitems, hb, hbody, hstored⟩ := exists_body hst htail.blank
    have hlength : (items.flatMap Spaced.text ++ b).length + 2 ≤ fuel := by
      rw [← hbody, length_dropLast]
      omega
    have hargs := parseargs_items ((st.wordsText ++ tail).getLastD NUL) [] hitems hb hs hlength
    rw [hstored, ← hbody] at hargs
    rw [parsecmd, hbar, hredir]
    refine (hargs.bind ((st.storedWords tail).length < MAXARGS) ?_).congr ?_ fun v hv => hv
    · rintro v s rfl hs
      have hcount : ([] ++ (slots xs (st.storedWords tail)).map Ref.token).length =
          (st.storedWords tail).length := by
        rw [nil_append, length_map, length_slots]
      by_cases hlt : (st.storedWords tail).length < MAXARGS
      · refine .inl ⟨hlt, _, s, if_pos (by rw [hcount]; exact hlt), rfl, ?_⟩
        rwa [storedFiles, append_nil]
      · exact .inr ⟨hlt, if_neg (by rw [hcount]; exact hlt)⟩
    · simp [FitsAll, storedFiles, wordsOf, nextGap]
  | append_singleton rs r ih =>
    have hr := hrs r (by simp)
    have htext : st.wordsText ++ (rs ++ [r]).flatMap Redirection.text ++ tail =
        (st.wordsText ++ rs.flatMap Redirection.text ++ r.gap) ++
          r.op.char :: (r.pre ++ r.file ++ tail) := by
      simp [Redirection.text]
    have hredir : splitLast (fun c => decide (c = '<') || decide (c = '>'))
        (st.wordsText ++ (rs ++ [r]).flatMap Redirection.text ++ tail) =
        some (st.wordsText ++ rs.flatMap Redirection.text ++ r.gap, r.op.char,
          r.pre ++ r.file ++ tail) := by
      rw [htext]
      exact splitLast_append _ (by cases r.op <;> decide)
        fun c hc => (hr.plain htail c hc).not_redir
    have hrs' : ∀ r' ∈ rs, r'.WellFormed := fun r' hr' => hrs r' (mem_append_left _ hr')
    obtain ⟨fuel, rfl⟩ : ∃ n, fuel = n + 1 := ⟨fuel - 1, by omega⟩
    have hlength : (st.wordsText ++ rs.flatMap Redirection.text ++ r.gap).length + 3 ≤
        fuel + 1 := by
      rw [htext, length_append, length_cons] at hfuel
      omega
    have hinner := ih hrs' hr.gap.isTail fuel hlength
      (splitLast_eq_none (stage_no_bar hst hrs' hr.gap.isTail))
    rw [parsecmd, hbar, hredir]
    refine (hinner.bind (Fits (fs ++ storedFiles rs r.gap) (storedFile r.file tail)) ?_).congr ?_
      fun v hv => hv
    · rintro v s rfl hs
      simp only [file_eq hr htail]
      have hadd := hs.addFile (storedFile_no_nul hr tail)
      refine (hadd.bind True ?_).congr (iff_of_eq (and_true _)) fun v hv => hv
      rintro file s rfl hs
      simp only [redir_branch]
      rw [wordsOf_append, storedFiles_append, slots_append, map_append, ← append_assoc]
      refine .done ?_ hs
      exact (wrapRefs_append _ r _ (by rw [length_map, length_slots, length_storedFiles])).symm
    · rw [storedFiles_append, fitsAll_append, wordsOf_append]
      simp [FitsAll, and_assoc]

end Stage

/-! ### The whole line -/

/-- A stage and what follows its words and redirections, up to and including `*_endofcmd`. -/
structure Segment where
  stage : Stage
  tail : List Char

namespace Segment

def text (g : Segment) : List Char :=
  g.stage.wordsText ++ g.stage.redirs.flatMap Redirection.text ++ g.tail

/-- The strings that are stored for words. -/
def words (g : Segment) : List (List Char) := wordsOf g.stage g.stage.redirs g.tail

/-- The strings that are stored for files. -/
def files (g : Segment) : List (List Char) := storedFiles g.stage.redirs g.tail

/-- The command of a stage, with its strings behind `xs` and `fs`. -/
def command (xs fs : List (List Char)) (g : Segment) : Cmd Ref :=
  wrapRefs (.exec ((slots xs g.words).map .token)) g.stage.redirs ((slots fs g.files).map .file)

structure WellFormed (g : Segment) : Prop where
  stage : g.stage.WellFormed
  tail : Tail g.tail

end Segment

/-- The commands of the stages. -/
def commands (xs fs : List (List Char)) : List Segment → List (Cmd Ref)
  | [] => []
  | g :: gs => g.command xs fs :: commands (xs ++ g.words) (fs ++ g.files) gs

theorem commands_append (xs fs : List (List Char)) (gs gs' : List Segment) :
    commands xs fs (gs ++ gs') = commands xs fs gs ++
      commands (xs ++ gs.flatMap Segment.words) (fs ++ gs.flatMap Segment.files) gs' := by
  induction gs generalizing xs fs with
  | nil => simp [commands]
  | cons g gs ih => simp [commands, ih]

/-- There is room for the strings of the stages. -/
def Room (xs fs : List (List Char)) (gs : List Segment) : Prop :=
  FitsAll xs (gs.flatMap Segment.words) ∧ FitsAll fs (gs.flatMap Segment.files) ∧
    ∀ g ∈ gs, g.words.length < MAXARGS

/-- Room for segments is room for the first and, behind them, for the others. -/
theorem room_append {xs fs : List (List Char)} {gs gs' : List Segment} :
    Room xs fs (gs ++ gs') ↔ Room xs fs gs ∧
      Room (xs ++ gs.flatMap Segment.words) (fs ++ gs.flatMap Segment.files) gs' := by
  simp only [Room, flatMap_append, fitsAll_append, mem_append, or_imp, forall_and]
  tauto

theorem stages_wrapRefs (argv : List α) (rs : List Redirection) (files : List α) :
    stages (wrapRefs (.exec argv) rs files) = [wrapRefs (.exec argv) rs files] := by
  rw [wrapRefs]
  induction rs.zip files using List.reverseRecOn with
  | nil => rfl
  | append_singleton l x _ =>
    rw [foldl_append]
    rfl

section Line

variable {s : State} {xs fs : List (List Char)}

/-- `parsecmd` on a segment. -/
theorem parsecmd_segment {g : Segment} {fuel : Nat} (hg : g.WellFormed) (hs : Stored s xs fs)
    (hfuel : g.text.length + 3 ≤ fuel) :
    Stores (parsecmd fuel g.text s) (Room xs fs [g]) (· = g.command xs fs) (xs ++ g.words)
      (fs ++ g.files) := by
  refine (parsecmd_stage hg.stage hg.stage.redirs hg.tail hs hfuel).congr ?_ fun v hv => hv
  simp only [Room, flatMap_singleton, mem_singleton, forall_eq]
  exact ⟨fun ⟨⟨hx, hlt⟩, hf⟩ => ⟨hx, hf, hlt⟩, fun ⟨hx, hf, hlt⟩ => ⟨⟨hx, hlt⟩, hf⟩⟩

/-- `parsecmd` on segments with `|` between. -/
theorem parsecmd_line {init : List Segment} {last : Segment} {fuel : Nat}
    (hinit : ∀ g ∈ init, g.WellFormed) (hlast : last.WellFormed) (hs : Stored s xs fs)
    (hfuel : (init.flatMap (fun g => g.text ++ ['|']) ++ last.text).length + 3 ≤ fuel) :
    Stores (parsecmd fuel (init.flatMap (fun g => g.text ++ ['|']) ++ last.text) s)
      (Room xs fs (init ++ [last])) (fun cmd => stages cmd = commands xs fs (init ++ [last]))
      (xs ++ (init ++ [last]).flatMap Segment.words)
      (fs ++ (init ++ [last]).flatMap Segment.files) := by
  -- the last `|` is found first
  induction init using List.reverseRecOn generalizing last fuel with
  | nil =>
    simp only [flatMap_nil, nil_append, flatMap_singleton] at hfuel ⊢
    refine (parsecmd_segment hlast hs hfuel).congr Iff.rfl ?_
    rintro v rfl
    rw [Segment.command, stages_wrapRefs]
    rfl
  | append_singleton init g ih =>
    have hg := hinit g (by simp)
    have hinit' : ∀ g' ∈ init, g'.WellFormed := fun g' hg' => hinit g' (mem_append_left _ hg')
    have htext : (init ++ [g]).flatMap (fun g => g.text ++ ['|']) ++ last.text =
        (init.flatMap (fun g => g.text ++ ['|']) ++ g.text) ++ '|' :: last.text := by
      simp
    obtain ⟨fuel, rfl⟩ : ∃ n, fuel = n + 1 := ⟨fuel - 1, by omega⟩
    rw [htext, length_append, length_cons] at hfuel
    have hbar : splitLast (fun c => decide (c = '|'))
        ((init.flatMap (fun g => g.text ++ ['|']) ++ g.text) ++ '|' :: last.text) =
        some (init.flatMap (fun g => g.text ++ ['|']) ++ g.text, '|', last.text) :=
      splitLast_append _ (by decide) (stage_no_bar hlast.stage hlast.stage.redirs hlast.tail)
    have hlength : (init.flatMap (fun g => g.text ++ ['|']) ++ g.text).length + 3 ≤ fuel := by
      omega
    rw [htext, parsecmd, hbar, room_append]
    have hflat : ∀ f : Segment → List (List Char), (init ++ [g] ++ [last]).flatMap f =
        (init ++ [g]).flatMap f ++ f last := by
      simp
    rw [hflat, hflat, ← append_assoc, ← append_assoc]
    refine (ih hinit' hg hlength).bind _ ?_
    rintro left s hleft hs
    refine ((parsecmd_segment hlast hs (by omega)).bind True ?_).congr (iff_of_eq (and_true _))
      fun v hv => hv
    rintro right s rfl hs
    refine .done ?_ hs
    rw [stages, hleft, commands_append xs fs (init ++ [g]), Segment.command, stages_wrapRefs]
    rfl

end Line

end Xv6.Nsh
