import Xv6.Nsh.Parse

/-!
# When the two shells agree

For a command line of the common language, `nsh` finds the same commands as `sh` exactly if blanks
stand where it needs them, up to the cases in which a lost character comes back from the next row of
its table.
-/

namespace Xv6.Nsh

open Shell List

/-! ### The line as `parsecmd` gets it -/

/-- The blanks at the end of the line after `preprocessCmd`. -/
def chop (trail : List Char) : List Char :=
  if trail.getLast? = some '\n' then trail.dropLast else trail

namespace CommandLine

/-- The stages before the last one, up to the character before `|`. -/
def initSegments (l : CommandLine) : List Segment := l.init.map fun st => ⟨st, st.trail⟩

/-- The last stage, up to the NUL byte. -/
def lastSegment (l : CommandLine) : Segment := ⟨l.last, chop l.last.trail ++ [NUL]⟩

def segments (l : CommandLine) : List Segment := l.initSegments ++ [l.lastSegment]

theorem map_stage_segments (l : CommandLine) : l.segments.map Segment.stage = l.stages := by
  simp [segments, initSegments, lastSegment, stages, Function.comp_def]

end CommandLine

theorem Blank.chop {b : List Char} (hb : Blank b) : Blank (chop b) := by
  rw [Nsh.chop]
  split
  · exact fun c hc => hb c (dropLast_subset b hc)
  · exact hb

/-- The words and redirections of a stage end with a character of a word. -/
theorem Stage.WellFormed.last_char {st : Stage} (hst : st.WellFormed) :
    ∃ front c, st.wordsText ++ st.redirs.flatMap Redirection.text = front ++ [c] ∧
      isWordChar c = true := by
  have hword : ∀ {w : List Char} (before : List Char), Word w →
      ∃ front c, before ++ w = front ++ [c] ∧ isWordChar c = true := by
    intro w before hw
    obtain ⟨front, c, hfront⟩ := exists_concat hw.ne_nil
    exact ⟨before ++ front, c, by rw [hfront, append_assoc], hw.chars c (by simp [hfront])⟩
  by_cases hredirs : st.redirs = []
  · obtain ⟨front, a, hfront⟩ := exists_concat (show st.items ≠ [] from cons_ne_nil _ _)
    have htext : st.wordsText ++ st.redirs.flatMap Redirection.text =
        front.flatMap Spaced.text ++ a.gap ++ a.word := by
      rw [hredirs, st.wordsText_eq, hfront]
      simp [Spaced.text]
    rw [htext]
    exact hword _ (hst.items_word (by simp [hfront]))
  · obtain ⟨rs, r, hrs⟩ := exists_concat hredirs
    have htext : st.wordsText ++ st.redirs.flatMap Redirection.text =
        (st.wordsText ++ rs.flatMap Redirection.text ++ r.gap ++ r.op.char :: r.pre) ++ r.file := by
      rw [hrs]
      simp [Redirection.text]
    rw [htext]
    exact hword _ (hst.redirs r (by simp [hrs])).file

variable {l : CommandLine}

/-- `preprocessCmd` refuses long lines and drops a newline at the end. -/
theorem preprocessCmd_eq (hl : l.WellFormed) : (preprocessCmd l.text).map (· ++ [NUL]) =
      if l.text.length > MAXBUFSIZ then none
      else some (l.initSegments.flatMap (fun g => g.text ++ ['|']) ++ l.lastSegment.text) := by
  have hinit : l.init.flatMap (fun st => st.text ++ ['|']) =
      l.initSegments.flatMap (fun g => g.text ++ ['|']) := by
    rw [CommandLine.initSegments, flatMap_map]
    rfl
  obtain ⟨front, c, hfront, hc⟩ := (hl l.last (by simp [CommandLine.stages])).last_char
  have htext : l.text = l.initSegments.flatMap (fun g => g.text ++ ['|']) ++
      (front ++ [c]) ++ l.last.trail := by
    rw [CommandLine.text, hinit, ← hfront, append_assoc]
    rfl
  have hlast : l.lastSegment.text = front ++ [c] ++ (chop l.last.trail ++ [NUL]) := by
    rw [← hfront]
    rfl
  rw [preprocessCmd]
  split
  · rfl
  · rw [hlast]
    -- the last character of the line is that of the blanks, if there are any
    by_cases htrail : l.last.trail = []
    · have hne : l.text.getLast? ≠ some '\n' := by
        rw [htext, htrail, append_nil, ← append_assoc, getLast?_concat]
        rintro ⟨⟩
        cases hc
      rw [if_neg hne, htext, chop, htrail]
      simp
    · obtain ⟨b, d, hb⟩ := exists_concat htrail
      have hget : l.text.getLast? = some d := by
        rw [htext, hb, ← append_assoc, getLast?_concat]
      rw [hget, chop, hb, getLast?_concat]
      by_cases hd : d = '\n'
      · rw [if_pos (congrArg some hd), if_pos (congrArg some hd), htext, hb]
        rw [← append_assoc, dropLast_concat, dropLast_concat]
        simp
      · have hne : some d ≠ some '\n' := fun heq => hd (Option.some.inj heq)
        rw [if_neg hne, if_neg hne, htext, hb]
        simp

/-- The segments of a line are well formed. -/
theorem segments_wellFormed (hl : l.WellFormed) :
    (∀ g ∈ l.initSegments, g.WellFormed) ∧ l.lastSegment.WellFormed := by
  refine ⟨fun g hg => ?_, ?_, ?_, ?_⟩
  · obtain ⟨st, hst, rfl⟩ := mem_map.mp hg
    have hwf := hl st (mem_append_left _ hst)
    exact ⟨hwf, hwf.trail.isTail⟩
  · exact hl l.last (by simp [CommandLine.stages])
  · rw [CommandLine.lastSegment, dropLast_concat]
    exact (hl l.last (by simp [CommandLine.stages])).trail.chop
  · intro c hc
    rcases mem_append.mp hc with hc | hc
    · exact plain_of_blank ((hl l.last (by simp [CommandLine.stages])).trail.chop c hc)
    · rw [mem_singleton.mp hc]
      exact ⟨by decide, by decide, by decide⟩

theorem stored_empty : Stored .empty [] [] :=
  ⟨⟨fun _ => rfl, by simp, Nat.zero_le _⟩, ⟨fun _ => rfl, by simp, Nat.zero_le _⟩⟩

theorem preprocessCmd_length {line line' : List Char} (h : preprocessCmd line = some line') :
    line'.length ≤ line.length := by
  rw [preprocessCmd] at h
  split at h
  · cases h
  · split at h
    · cases h
      rw [length_dropLast]
      omega
    · cases h
      rfl

/-- `nsh` parses a line, if there is room, to the commands of its segments. -/
theorem nsh_parse (hl : l.WellFormed) {fuel : Nat} (hfuel : l.text.length + 4 ≤ fuel) :
    Stores (parse fuel l.text) (l.text.length ≤ MAXBUFSIZ ∧ Room [] [] l.segments)
      (fun cmd => stages cmd = commands [] [] l.segments) (l.segments.flatMap Segment.words)
      (l.segments.flatMap Segment.files) := by
  have hline := preprocessCmd_eq hl
  obtain ⟨hinit, hlast⟩ := segments_wellFormed hl
  rw [parse]
  cases hpre : preprocessCmd l.text with
  | none =>
    refine .inr ⟨fun hroom => ?_, rfl⟩
    rw [hpre, if_neg (not_lt.mpr hroom.1)] at hline
    cases hline
  | some line =>
    have hlength := preprocessCmd_length hpre
    have hle : l.text.length ≤ MAXBUFSIZ := by
      by_contra hnot
      rw [hpre, if_pos (not_le.mp hnot)] at hline
      cases hline
    rw [hpre, if_neg (not_lt.mpr hle)] at hline
    have htext := Option.some.inj hline
    have hbound : (l.initSegments.flatMap
      (fun g => g.text ++ ['|']) ++ l.lastSegment.text).length + 3 ≤ fuel := by
      rw [← htext, length_append, length_singleton]
      omega
    have hstores := parsecmd_line hinit hlast stored_empty hbound
    rw [← htext] at hstores
    exact hstores.congr ⟨fun hroom => ⟨hle, hroom⟩, fun hroom => hroom.2⟩ fun v hv => hv

/-! ### Reading the strings -/

theorem map_wrapRefs {α β : Type} (f : α → β) (cmd : Cmd α) (rs : List Redirection)
    (files : List α) :
    (wrapRefs cmd rs files).map f = wrapRefs (cmd.map f) rs (files.map f) := by
  induction rs generalizing cmd files with
  | nil => rfl
  | cons r rs ih =>
    cases files with
    | nil => rfl
    | cons file files => exact ih _ files

theorem stages_map {α β : Type} (f : α → β) (cmd : Cmd α) :
    stages (cmd.map f) = (stages cmd).map (Cmd.map f) := by
  induction cmd with
  | pipe left right ihl ihr => rw [stages, map_append, ← ihl, ← ihr]; rfl
  | exec | redir | list | back => rfl

/-- The commands that are read, given what is read for the words and the files. -/
def dealt : List Segment → (words files : List (List Char)) → List Tree
  | [], _, _ => []
  | g :: gs, words, files =>
    wrapRefs (.exec (words.take g.words.length)) g.stage.redirs (files.take g.files.length) ::
      dealt gs (words.drop g.words.length) (files.drop g.files.length)

/-- Reading the commands deals out what the tables hold. -/
theorem read_commands {s : State} {xs fs : List (List Char)} (gs : List Segment)
    (hs : Stored s (xs ++ gs.flatMap Segment.words) (fs ++ gs.flatMap Segment.files)) :
    (commands xs fs gs).map (Cmd.map s.read) =
      dealt gs (reads (gs.flatMap Segment.words)) (reads (gs.flatMap Segment.files)) := by
  induction gs generalizing xs fs with
  | nil => rfl
  | cons g gs ih =>
    rw [flatMap_cons, flatMap_cons, ← append_assoc, ← append_assoc] at hs
    have hwords := hs.tokens.read_slots
    have hfiles := hs.files.read_slots
    have hrest := ih hs
    rw [commands, map_cons, hrest, dealt, flatMap_cons, flatMap_cons, reads_drop,
      reads_drop, ← hwords, ← hfiles, Segment.command, map_wrapRefs, Cmd.map, map_map,
      map_map]
    rfl

/-! ### Comparing commands -/

/-- Commands with the same redirections differ in words or files. -/
theorem wrapRefs_inj {α : Type} {a b : List α} {rs : List Redirection} {fa fb : List α}
    (ha : fa.length = rs.length) (hb : fb.length = rs.length) :
    wrapRefs (.exec a) rs fa = wrapRefs (.exec b) rs fb ↔ a = b ∧ fa = fb := by
  refine ⟨fun h => ?_, fun ⟨hab, hf⟩ => by rw [hab, hf]⟩
  induction rs using List.reverseRecOn generalizing fa fb with
  | nil =>
    rw [length_nil, length_eq_zero_iff] at ha hb
    subst ha hb
    exact ⟨Cmd.exec.inj h, rfl⟩
  | append_singleton rs r ih =>
    rw [length_append, length_singleton] at ha hb
    obtain ⟨fa, x, rfl⟩ := exists_concat (show fa ≠ [] by rintro rfl; simp at ha)
    obtain ⟨fb, y, rfl⟩ := exists_concat (show fb ≠ [] by rintro rfl; simp at hb)
    rw [length_append, length_singleton, Nat.add_right_cancel_iff] at ha hb
    rw [wrapRefs_append _ r _ ha.symm, wrapRefs_append _ r _ hb.symm] at h
    obtain ⟨hinner, rfl, -, -⟩ := Cmd.redir.inj h
    obtain ⟨rfl, rfl⟩ := ih ha hb hinner
    exact ⟨rfl, rfl⟩

theorem command_eq (st : Stage) : st.command = wrapRefs (.exec st.words) st.redirs st.files := by
  rw [Stage.command, Stage.files, wrapAll, wrapRefs]
  generalize (Cmd.exec st.words) = cmd
  induction st.redirs generalizing cmd with
  | nil => rfl
  | cons r rs ih => exact ih _

/-- The commands that are read are the expected ones if the words and files are. -/
theorem dealt_eq_iff {gs : List Segment} {words files : List (List Char)}
    (hwords : words.length = (gs.flatMap Segment.words).length)
    (hfiles : files.length = (gs.flatMap Segment.files).length) :
    dealt gs words files = gs.map (fun g => g.stage.command) ↔
      (∀ g ∈ gs, g.words.length = g.stage.words.length) ∧
        words = gs.flatMap (fun g => g.stage.words) ∧
          files = gs.flatMap (fun g => g.stage.files) := by
  induction gs generalizing words files with
  | nil =>
    rw [flatMap_nil, length_nil, length_eq_zero_iff] at hwords hfiles
    simp [dealt, hwords, hfiles]
  | cons g gs ih =>
    rw [flatMap_cons, length_append] at hwords hfiles
    have hcount : g.files.length = g.stage.redirs.length := length_storedFiles _ _
    have hwords' : (words.drop g.words.length).length = (gs.flatMap Segment.words).length := by
      rw [length_drop]
      omega
    have hfiles' : (files.drop g.files.length).length = (gs.flatMap Segment.files).length := by
      rw [length_drop]
      omega
    have htake : (files.take g.files.length).length = g.stage.redirs.length := by
      rw [length_take]
      omega
    have hstage : g.stage.files.length = g.stage.redirs.length := length_map _
    rw [dealt, map_cons, List.cons.injEq, ih hwords' hfiles', command_eq, wrapRefs_inj htake hstage,
      flatMap_cons, flatMap_cons, forall_mem_cons]
    constructor
    · rintro ⟨⟨hw, hf⟩, hlengths, hwrest, hfrest⟩
      refine ⟨⟨?_, hlengths⟩, ?_, ?_⟩
      · rw [← hw, length_take]
        omega
      · rw [← hw, ← hwrest, take_append_drop]
      · rw [← hf, ← hfrest, take_append_drop]
    · rintro ⟨⟨hlength, hlengths⟩, rfl, rfl⟩
      rw [hlength, hcount, ← hstage]
      exact ⟨⟨take_left, take_left⟩, hlengths, drop_left, drop_left⟩

/-! ### The condition -/

/-- `nsh` stores one string for each word of the stage, where `tail` follows the last word: it does
not lose a word of one character at the start of the line or behind `|`, and it does not take blanks
for another word. -/
def Stage.Kept (st : Stage) (tail : List Char) : Prop :=
  if tail = [] then ¬ (st.lead = [] ∧ st.more = [] ∧ st.first.length = 1)
  else tail.dropLast = [] ∨ tail.getLast? = some ' '

/-- A word, and whether its last character is lost. -/
structure Mark where
  cut : Bool
  word : List Char

/-- The words of a stage, the last of them cut or not. -/
def markLast (cut : Bool) : List (List Char) → List Mark
  | [] => []
  | [w] => [⟨cut, w⟩]
  | w :: ws => ⟨false, w⟩ :: markLast cut ws

/-- The files of a stage. -/
def markFiles : List Redirection → List Char → List Mark
  | [], _ => []
  | r :: rs, tail => ⟨nextGap rs tail = [], r.file⟩ :: markFiles rs tail

namespace Segment

def markedWords (g : Segment) : List Mark :=
  markLast (nextGap g.stage.redirs g.tail = []) g.stage.words

def markedFiles (g : Segment) : List Mark := markFiles g.stage.redirs g.tail

end Segment

/-- Every string is read as it was: it is not cut and does not end at the end of a row, unless it is
the last one; or it is cut at the end of a row, and the next string is the character that is
missing.
-/
def Restored : List Mark → Prop
  | [] => True
  | m :: ms =>
    (if m.cut then
      (m.word.length - 1) % MAXPATH = 0 ∧
        (ms.head?.map Mark.word) = m.word.getLast?.map fun c => [c]
    else m.word.length % MAXPATH ≠ 0 ∨ ms = []) ∧ Restored ms

/-- The lines on which `nsh` agrees with `sh`. -/
structure CommandLine.Safe (l : CommandLine) : Prop where
  length_le : l.text.length ≤ MAXBUFSIZ
  kept : ∀ g ∈ l.segments, g.stage.Kept (nextGap g.stage.redirs g.tail)
  words : Restored (l.segments.flatMap Segment.markedWords)
  files : Restored (l.segments.flatMap Segment.markedFiles)

/-- The string that is stored. -/
def Mark.stored (m : Mark) : List Char := if m.cut then m.word.dropLast else m.word

theorem markLast_word (cut : Bool) (ws : List (List Char)) :
    (markLast cut ws).map Mark.word = ws := by
  induction ws with
  | nil => rfl
  | cons w ws ih =>
    cases ws with
    | nil => rfl
    | cons w' ws => rw [markLast, map_cons, ih]; simp

theorem markLast_stored (cut : Bool) (ws : List (List Char)) :
    (markLast cut ws).map Mark.stored = if cut then cutLast ws else ws := by
  induction ws with
  | nil => cases cut <;> rfl
  | cons w ws ih =>
    cases ws with
    | nil => cases cut <;> rfl
    | cons w' ws =>
      rw [markLast, map_cons, ih]
      · cases cut <;> rfl
      · simp

theorem markFiles_word (rs : List Redirection) (tail : List Char) :
    (markFiles rs tail).map Mark.word = rs.map Redirection.file := by
  induction rs with
  | nil => rfl
  | cons r rs ih => rw [markFiles, map_cons, map_cons, ih]

theorem markFiles_stored (rs : List Redirection) (tail : List Char) :
    (markFiles rs tail).map Mark.stored = storedFiles rs tail := by
  induction rs with
  | nil => rfl
  | cons r rs ih =>
    rw [markFiles, map_cons, ih, storedFiles, Mark.stored, storedFile]
    simp

theorem length_cutLast (ws : List (List Char)) : (cutLast ws).length = ws.length := by
  have hstored := congrArg List.length (markLast_stored true ws)
  have hword := congrArg List.length (markLast_word true ws)
  rw [length_map] at hstored hword
  exact hstored.symm.trans hword

/-- One string is stored for each word exactly if they are kept. -/
theorem kept_iff (g : Segment) :
    g.words.length = g.stage.words.length ↔ g.stage.Kept (nextGap g.stage.redirs g.tail) := by
  have hpos : 0 < g.stage.words.length := Nat.succ_pos _
  rw [Segment.words, wordsOf, Stage.storedWords, Stage.Kept]
  generalize nextGap g.stage.redirs g.tail = tail
  by_cases hnil : tail = []
  · rw [if_pos hnil, if_pos hnil]
    split
    next hlost => simp [hlost]; omega
    next hlost => simp [hlost, length_cutLast]
  · obtain ⟨b, c, rfl⟩ := exists_concat hnil
    rw [if_neg hnil, if_neg hnil, length_append, dropLast_concat, getLastD_concat,
      getLast?_concat, extra]
    by_cases hb : b = []
    · simp [hb]
    · by_cases hc : c = ' '
      · simp [hc]
      · simp [hb, hc]

/-- Words that are kept are at most cut. -/
theorem words_of_kept {g : Segment} (h : g.stage.Kept (nextGap g.stage.redirs g.tail)) :
    g.words = g.markedWords.map Mark.stored := by
  rw [Segment.markedWords, markLast_stored, Segment.words, wordsOf, Stage.storedWords]
  rw [Stage.Kept] at h
  generalize nextGap g.stage.redirs g.tail = tail at h ⊢
  by_cases hnil : tail = []
  · rw [if_pos hnil] at h
    rw [if_pos hnil, if_neg h, if_pos (decide_eq_true hnil)]
  · obtain ⟨b, c, rfl⟩ := exists_concat hnil
    rw [if_neg hnil, dropLast_concat, getLast?_concat] at h
    have hextra : extra b c = [] := by
      rw [extra, if_neg]
      rintro ⟨hb, hc⟩
      rcases h with h | h
      · exact hb h
      · exact hc (Option.some.inj h)
    rw [if_neg hnil, dropLast_concat, getLastD_concat, hextra, append_nil, if_neg (by simp [hnil])]

theorem readAt_eq (xs : List (List Char)) : readAt xs = (reads xs).headD [] := by
  cases xs <;> rfl

/-- All strings read back as they were exactly if they are restored. -/
theorem reads_stored_iff {ms : List Mark} (hms : ∀ m ∈ ms, m.word ≠ []) :
    reads (ms.map Mark.stored) = ms.map Mark.word ↔ Restored ms := by
  induction ms with
  | nil => simp [reads, Restored]
  | cons m ms ih =>
    have hrest := ih fun m' hm' => hms m' (mem_cons_of_mem m hm')
    rw [map_cons, map_cons, reads, List.cons.injEq, hrest, Restored, and_comm,
      and_comm (b := Restored ms)]
    refine and_congr_right fun hrestored => ?_
    rw [readAt, readAt_eq, hrest.mpr hrestored]
    obtain ⟨w, c, hw⟩ := exists_concat (hms m mem_cons_self)
    cases hcut : m.cut with
    | true =>
      rw [Mark.stored, hcut, if_pos rfl, if_pos rfl, hw, dropLast_concat, getLast?_concat,
        length_append, length_singleton, Nat.add_sub_cancel]
      by_cases hdvd : w.length % MAXPATH = 0
      · rw [if_pos hdvd, append_cancel_left_eq]
        cases ms <;> simp [hdvd]
      · rw [if_neg hdvd]
        simp [hdvd]
    | false =>
      rw [Mark.stored, hcut, if_neg Bool.false_ne_true, if_neg Bool.false_ne_true]
      by_cases hdvd : m.word.length % MAXPATH = 0
      · rw [if_pos hdvd]
        cases ms with
        | nil => simp
        | cons m' ms =>
          have hne := hms m' (by simp)
          simp [hdvd, hne]
      · rw [if_neg hdvd]
        simp [hdvd]

/-! ### Room in the tables -/

/-- The characters of some strings. -/
def charCount (xs : List (List Char)) : Nat := (xs.map List.length).sum

theorem charCount_append (xs ys : List (List Char)) :
    charCount (xs ++ ys) = charCount xs + charCount ys := by
  rw [charCount, map_append, sum_append]
  rfl

/-- Rows in use are bounded by words and characters. -/
theorem start_le (xs : List (List Char)) :
    start xs * MAXPATH ≤ (MAXPATH - 1) * xs.length + charCount xs := by
  induction xs with
  | nil => exact Nat.zero_le _
  | cons x xs ih =>
    have hrows := (rows_spec x).2
    have hcount : charCount (x :: xs) = x.length + charCount xs := rfl
    rw [start_cons, Nat.add_mul, length_cons, hcount]
    simp only [MAXPATH] at hrows ih ⊢
    omega

/-- Less than ten words in a line that fits the buffer fit the table. -/
theorem fitsAll_of_le {xs ys : List (List Char)} (hlength : (xs ++ ys).length < MAXARGS)
    (hchars : charCount (xs ++ ys) ≤ MAXBUFSIZ) : FitsAll xs ys := by
  induction ys generalizing xs with
  | nil => trivial
  | cons y ys ih =>
    have hsplit : xs ++ y :: ys = xs ++ [y] ++ ys := by simp
    have hstart := start_le xs
    have hcount : charCount (y :: ys) = y.length + charCount ys := rfl
    refine ⟨?_, ih (hsplit ▸ hlength) (hsplit ▸ hchars)⟩
    rw [charCount_append, hcount] at hchars
    rw [length_append, length_cons] at hlength
    simp only [Fits, MAXARGS, MAXPATH, MAXBUFSIZ] at hstart hlength hchars ⊢
    omega

theorem charCount_stored_le (ms : List Mark) :
    charCount (ms.map Mark.stored) ≤ charCount (ms.map Mark.word) := by
  induction ms with
  | nil => rfl
  | cons m ms ih =>
    have hle : m.stored.length ≤ m.word.length := by
      rw [Mark.stored]
      split
      · rw [length_dropLast]
        omega
      · rfl
    exact Nat.add_le_add hle ih

/-- The characters of words of the stages are characters of the line. -/
theorem charCount_stages_le {f : Stage → List (List Char)}
    (hf : ∀ st, charCount (f st) ≤ st.text.length) (l : CommandLine) :
    charCount (l.stages.flatMap f) ≤ l.text.length := by
  have hlast := hf l.last
  have hinit : charCount (l.init.flatMap f) ≤
      (l.init.flatMap fun st => st.text ++ ['|']).length := by
    induction l.init with
    | nil => rfl
    | cons st init ih =>
      have hst := hf st
      rw [flatMap_cons, flatMap_cons, charCount_append, length_append, length_append]
      omega
  rw [CommandLine.stages, flatMap_append, charCount_append, CommandLine.text, length_append,
    flatMap_singleton]
  omega

theorem Stage.charCount_words (st : Stage) : charCount st.words ≤ st.text.length := by
  have hitems : ∀ items : List Spaced,
      charCount (items.map Spaced.word) ≤ (items.flatMap Spaced.text).length := by
    intro items
    induction items with
    | nil => rfl
    | cons a items ih =>
      have hcount : charCount ((a :: items).map Spaced.word) =
          a.word.length + charCount (items.map Spaced.word) := rfl
      rw [flatMap_cons, length_append, hcount, Spaced.text, length_append]
      omega
  have hwords := hitems st.items
  rw [← st.wordsText_eq] at hwords
  rw [st.words_eq, Stage.text, length_append, length_append]
  omega

theorem Stage.charCount_files (st : Stage) : charCount st.files ≤ st.text.length := by
  have hredirs : charCount st.files ≤ (st.redirs.flatMap Redirection.text).length := by
    rw [Stage.files]
    induction st.redirs with
    | nil => rfl
    | cons r rs ih =>
      have hcount : charCount ((r :: rs).map Redirection.file) =
          r.file.length + charCount (rs.map Redirection.file) := rfl
      rw [flatMap_cons, length_append, hcount, Redirection.text, length_append,
        length_cons, length_append]
      omega
  rw [Stage.text, length_append, length_append]
  omega

/-! ### The two shells -/

section Agreement

variable {l : CommandLine}

theorem flatMap_words (l : CommandLine) :
    l.segments.flatMap (fun g => g.stage.words) = l.words := by
  rw [CommandLine.words, ← l.map_stage_segments, flatMap_map]

theorem flatMap_files (l : CommandLine) :
    l.segments.flatMap (fun g => g.stage.files) = l.files := by
  rw [CommandLine.files, ← l.map_stage_segments, flatMap_map]

/-- The marked words are those of the line. -/
theorem markedWords_word (l : CommandLine) :
    (l.segments.flatMap Segment.markedWords).map Mark.word = l.words := by
  rw [map_flatMap, ← flatMap_words]
  simp only [Segment.markedWords, markLast_word]

theorem markedFiles_word (l : CommandLine) :
    (l.segments.flatMap Segment.markedFiles).map Mark.word = l.files := by
  rw [map_flatMap, ← flatMap_files]
  simp only [Segment.markedFiles, markFiles_word]
  rfl

/-- What is stored of files is what the marks say. -/
theorem markedFiles_stored (l : CommandLine) :
    (l.segments.flatMap Segment.markedFiles).map Mark.stored =
      l.segments.flatMap Segment.files := by
  rw [map_flatMap]
  simp only [Segment.markedFiles, markFiles_stored]
  rfl

/-- So for words that are kept. -/
theorem markedWords_stored
    (hkept : ∀ g ∈ l.segments, g.stage.Kept (nextGap g.stage.redirs g.tail)) :
    (l.segments.flatMap Segment.markedWords).map Mark.stored =
      l.segments.flatMap Segment.words := by
  rw [map_flatMap, flatMap_def, flatMap_def]
  exact congrArg List.flatten (map_congr_left fun g hg => (words_of_kept (hkept g hg)).symm)

theorem words_ne_nil (hl : l.WellFormed) : ∀ w ∈ l.words, w ≠ [] := by
  intro w hw
  obtain ⟨st, hst, hw⟩ := mem_flatMap.mp hw
  rw [st.words_eq] at hw
  obtain ⟨a, ha, rfl⟩ := mem_map.mp hw
  exact ((hl st hst).items_word ha).ne_nil

theorem files_ne_nil (hl : l.WellFormed) : ∀ w ∈ l.files, w ≠ [] := by
  intro w hw
  obtain ⟨st, hst, hw⟩ := mem_flatMap.mp hw
  obtain ⟨r, hr, rfl⟩ := mem_map.mp hw
  exact ((hl st hst).redirs r hr).file.ne_nil

/-- What is read are the expected commands exactly if nothing is lost. -/
theorem dealt_segments_iff (hl : l.WellFormed) :
    dealt l.segments (reads (l.segments.flatMap Segment.words))
        (reads (l.segments.flatMap Segment.files)) = l.stages.map Stage.command ↔
      (∀ g ∈ l.segments, g.stage.Kept (nextGap g.stage.redirs g.tail)) ∧
        Restored (l.segments.flatMap Segment.markedWords) ∧
        Restored (l.segments.flatMap Segment.markedFiles) := by
  have hstages : l.stages.map Stage.command = l.segments.map fun g => g.stage.command := by
    rw [← l.map_stage_segments, map_map]
    rfl
  have hwords : ∀ m ∈ l.segments.flatMap Segment.markedWords, m.word ≠ [] := fun m hm =>
    words_ne_nil hl _ (markedWords_word l ▸ mem_map_of_mem hm)
  have hfiles : ∀ m ∈ l.segments.flatMap Segment.markedFiles, m.word ≠ [] := fun m hm =>
    files_ne_nil hl _ (markedFiles_word l ▸ mem_map_of_mem hm)
  rw [hstages, dealt_eq_iff (length_reads _) (length_reads _), flatMap_words, flatMap_files]
  simp only [kept_iff]
  refine and_congr_right fun hkept => and_congr ?_ ?_
  · rw [← reads_stored_iff hwords, markedWords_stored hkept, markedWords_word]
  · rw [← reads_stored_iff hfiles, markedFiles_stored, markedFiles_word]

/-- A safe line of less than ten words fits the tables. -/
theorem CommandLine.Safe.room (h : l.Safe) (hcount : l.wordCount < MAXARGS) :
    Room [] [] l.segments := by
  have hle := h.length_le
  have hwords := charCount_stages_le Stage.charCount_words l
  have hfiles := charCount_stages_le Stage.charCount_files l
  have hstored := charCount_stored_le (l.segments.flatMap Segment.markedWords)
  have hstoredf := charCount_stored_le (l.segments.flatMap Segment.markedFiles)
  rw [markedWords_stored h.kept, markedWords_word] at hstored
  rw [markedFiles_stored, markedFiles_word] at hstoredf
  have hlength : (l.segments.flatMap Segment.words).length = l.words.length := by
    rw [← markedWords_stored h.kept, ← markedWords_word, length_map, length_map]
  have hlengthf : (l.segments.flatMap Segment.files).length = l.files.length := by
    rw [← markedFiles_stored, ← markedFiles_word, length_map, length_map]
  simp only [CommandLine.wordCount] at hcount
  simp only [CommandLine.words, CommandLine.files] at hwords hfiles hstored hstoredf
  refine ⟨fitsAll_of_le ?_ ?_, fitsAll_of_le ?_ ?_, fun g hg => ?_⟩
  · rw [nil_append]
    omega
  · rw [nil_append]
    omega
  · rw [nil_append]
    omega
  · rw [nil_append]
    omega
  · obtain ⟨before, after, hsplit⟩ := append_of_mem hg
    rw [hsplit, flatMap_append, flatMap_cons, length_append, length_append] at hlength
    omega

end Agreement

/-- The fuel for a line. -/
def fuelFor (line : List Char) : Nat := 4 * line.length + 4

/-- The two shells find the same commands in the line. -/
def Agree (line : List Char) : Prop :=
  ∀ fuel ≥ fuelFor line, ∃ cmd buffer cmd' s,
    Shell.parsecmd fuel line = .done (cmd, buffer) ∧ parse fuel line = some (cmd', s) ∧
      stages (cmd'.map s.read) = stages (readCmd buffer cmd)

/-- On a command line of at most nine words the two shells agree exactly if it is safe: it fits the
buffer of `nsh`; the last word before an operator has a blank behind it, and if it has several the
last of them is a space; no blanks follow the last word of a line without redirections in the last
stage; and files have a blank before the next operator. Characters that are lost because a blank is
missing come back in rare cases only, which `Restored` describes. -/
theorem shells_agree_iff (l : CommandLine) (hl : l.WellFormed) (hcount : l.wordCount ≤ 9) :
    Agree l.text ↔ l.Safe := by
  have hlt : l.wordCount < MAXARGS := Nat.lt_succ_of_le hcount
  have hnsh : ∀ fuel ≥ fuelFor l.text, l.text.length + 4 ≤ fuel := by
    intro fuel hfuel
    simp only [fuelFor] at hfuel
    omega
  constructor
  · intro hagree
    obtain ⟨cmd, buffer, cmd', s, hsh, hparse, hequal⟩ := hagree _ le_rfl
    obtain ⟨_, _, hsh', hstages⟩ := sh_parsecmd hl hlt (le_refl (fuelFor l.text))
    obtain ⟨rfl, rfl⟩ := Prod.mk.inj (Outcome.done.inj (hsh.symm.trans hsh'))
    rcases nsh_parse hl (hnsh _ le_rfl) with ⟨⟨hle, -⟩, v, s', ho, hv, hs⟩ | ⟨-, ho⟩
    · obtain ⟨rfl, rfl⟩ := Prod.mk.inj (Option.some.inj (hparse.symm.trans ho))
      rw [stages_map, hv, read_commands l.segments hs, hstages, dealt_segments_iff hl] at hequal
      exact ⟨hle, hequal.1, hequal.2.1, hequal.2.2⟩
    · exact nomatch hparse.symm.trans ho
  · intro hsafe fuel hfuel
    obtain ⟨cmd, buffer, hsh, hstages⟩ := sh_parsecmd hl hlt hfuel
    rcases nsh_parse hl (hnsh _ hfuel) with ⟨-, cmd', s, ho, hv, hs⟩ | ⟨hroom, -⟩
    · refine ⟨cmd, buffer, cmd', s, hsh, ho, ?_⟩
      rw [stages_map, hv, read_commands l.segments hs, hstages, dealt_segments_iff hl]
      exact ⟨hsafe.kept, hsafe.words, hsafe.files⟩
    · exact absurd ⟨hsafe.length_le, hsafe.room hlt⟩ hroom

/-- `echo hi | cat`. -/
def spacedLine : CommandLine where
  init := [⟨[], ['e', 'c', 'h', 'o'], [⟨[' '], ['h', 'i']⟩], [], [' ']⟩]
  last := ⟨[' '], ['c', 'a', 't'], [], [], []⟩

theorem spacedLine_wellFormed : spacedLine.WellFormed := by
  have hword : ∀ w ∈ [['e', 'c', 'h', 'o'], ['h', 'i'], ['c', 'a', 't']], Word w := by
    intro w hw
    have hchars : ∀ w ∈ [['e', 'c', 'h', 'o'], ['h', 'i'], ['c', 'a', 't']],
        w ≠ [] ∧ (∀ c ∈ w, isWordChar c = true) ∧ NUL ∉ w := by
      decide
    exact ⟨(hchars w hw).1, (hchars w hw).2.1, (hchars w hw).2.2⟩
  have hspace : Blank [' '] := by simp [Blank, strchr, whitespace]
  have hnil : Blank [] := by simp [Blank]
  intro st hst
  rcases mem_append.mp hst with hst | hst
  · obtain rfl := mem_singleton.mp hst
    refine ⟨hnil, hword _ (by simp), ?_, by simp, hspace⟩
    intro a ha
    obtain rfl := mem_singleton.mp ha
    exact ⟨hspace, by simp, hword _ (by simp)⟩
  · obtain rfl := mem_singleton.mp hst
    exact ⟨hspace, hword _ (by simp [spacedLine]), by simp [spacedLine], by simp [spacedLine], hnil⟩

theorem shells_agree_iff_spacedLine : Agree spacedLine.text := by
  refine (shells_agree_iff spacedLine spacedLine_wellFormed (by decide)).mpr ⟨by decide, ?_, ?_, ?_⟩
  · intro g hg
    rcases mem_append.mp hg with hg | hg
    · obtain rfl := mem_singleton.mp hg
      exact .inl rfl
    · obtain rfl := mem_singleton.mp hg
      exact .inl rfl
  · exact ⟨.inl (by decide), .inl (by decide), .inl (by decide), trivial⟩
  · trivial

/-- `echo hi|cat`. -/
def crampedLine : List Char := ['e', 'c', 'h', 'o', ' ', 'h', 'i', '|', 'c', 'a', 't']

/-- Without a blank before `|`, `nsh` runs `echo h` instead of `echo hi`. -/
theorem shells_disagree : ¬ Agree crampedLine := by
  intro hagree
  have hnsh : (parse (fuelFor crampedLine) crampedLine).map (fun r => stages (r.1.map r.2.read)) =
      some [.exec [['e', 'c', 'h', 'o'], ['h']], .exec [['c', 'a', 't']]] := by
    decide +kernel
  have hsh : (match Shell.parsecmd (fuelFor crampedLine) crampedLine with
      | .done (cmd, buffer) => some (stages (readCmd buffer cmd))
      | _ => none) = some [.exec [['e', 'c', 'h', 'o'], ['h', 'i']], .exec [['c', 'a', 't']]] := by
    decide +kernel
  obtain ⟨cmd, buffer, cmd', s, hcall, hparse, hequal⟩ := hagree _ le_rfl
  rw [hcall] at hsh
  rw [hparse] at hnsh
  have hstages := (Option.some.inj hsh).symm.trans (hequal.symm.trans (Option.some.inj hnsh))
  cases hstages

end Xv6.Nsh
