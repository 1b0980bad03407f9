import Mathlib.Computability.Language

/-!
# The matcher of `user/grep.c` and `user/find.c`

Both programs have the same `match`, `matchhere` and `matchstar`, on strings as lists of
characters. `match_iff` compares them with the meaning of a pattern as a language.
-/

namespace Xv6.Grep

open List

open scoped Computability

/-- `matchstar`, for the call of `matchhere` on the rest of the pattern. -/
def matchstar (c : Char) (matchhere : List Char → Bool) : List Char → Bool
  | [] => matchhere []
  | a :: text => matchhere (a :: text) || ((a == c || c == '.') && matchstar c matchhere text)

/-- `matchhere`. -/
def matchhere : (re : List Char) → (text : List Char) → Bool
  | [], _ => true
  | c :: '*' :: re, text => matchstar c (matchhere re) text
  | ['$'], text => text.isEmpty
  | _ :: _, [] => false
  | c :: re, a :: text => (c == '.' || c == a) && matchhere re text

/-- The loop of `match`. -/
def matchLoop (re : List Char) : List Char → Bool
  | [] => matchhere re []
  | a :: text => matchhere re (a :: text) || matchLoop re text

/-- `match`. -/
def matchRe : (re : List Char) → (text : List Char) → Bool
  | '^' :: re, text => matchhere re text
  | re, text => matchLoop re text

/-! ### What a pattern means -/

/-- A character or `.`, once or any number of times. -/
structure Item where
  char : Char
  star : Bool

/-- The strings of one character that `c` stands for. -/
def one (c : Char) : Language Char := {w | ∃ a, w = [a] ∧ (c = '.' ∨ c = a)}

/-- The strings that an item stands for. -/
def Item.language (item : Item) : Language Char :=
  if item.star then (one item.char)∗ else one item.char

/-- A pattern, read from left to right. -/
structure Pattern where
  anchored : Bool
  items : List Item
  atEnd : Bool

/-- The items of a pattern, and whether a lone `$` ends it. -/
def readItems : List Char → List Item × Bool
  | [] => ([], false)
  | c :: '*' :: re => (⟨c, true⟩ :: (readItems re).1, (readItems re).2)
  | ['$'] => ([], true)
  | c :: re => (⟨c, false⟩ :: (readItems re).1, (readItems re).2)

/-- Read a pattern. -/
def Pattern.read : List Char → Pattern
  | '^' :: re => ⟨true, (readItems re).1, (readItems re).2⟩
  | re => ⟨false, (readItems re).1, (readItems re).2⟩

/-- The strings that a sequence of items stands for. -/
def language (items : List Item) : Language Char := (items.map Item.language).prod

/-- Some substring of the text is in the language, and it is where the pattern wants it. -/
def Pattern.Matches (pattern : Pattern) (text : List Char) : Prop :=
  ∃ before found after, text = before ++ found ++ after ∧ found ∈ language pattern.items ∧
    (pattern.anchored = true → before = []) ∧ (pattern.atEnd = true → after = [])

variable {c : Char} {w text : List Char} {item : Item} {items : List Item}

theorem mem_star : w ∈ (one c)∗ ↔ ∀ a ∈ w, c = '.' ∨ c = a := by
  constructor
  · rintro ⟨words, rfl, hwords⟩ a ha
    obtain ⟨word, hword, ha⟩ := mem_flatten.mp ha
    obtain ⟨b, rfl, hb⟩ := hwords word hword
    rwa [mem_singleton.mp ha]
  · intro h
    refine ⟨w.map fun a => [a], (flatMap_singleton' w).symm, ?_⟩
    intro word hword
    obtain ⟨a, ha, rfl⟩ := mem_map.mp hword
    exact ⟨a, rfl, h a ha⟩

theorem mem_language_cons : w ∈ language (item :: items) ↔
    ∃ u ∈ item.language, ∃ v ∈ language items, u ++ v = w := Language.mem_mul

/-- `matchstar` passes over characters that `c` stands for, up to a place where the rest matches. -/
theorem matchstar_iff {here : List Char → Bool} : matchstar c here text = true ↔
    ∃ u v, text = u ++ v ∧ (∀ a ∈ u, c = '.' ∨ c = a) ∧ here v = true := by
  induction text with
  | nil => simp [matchstar]
  | cons a text ih =>
    have hstands : (a == c || c == '.') = true ↔ c = '.' ∨ c = a := by
      rw [Bool.or_eq_true, beq_iff_eq, beq_iff_eq, or_comm, @eq_comm _ a]
    rw [matchstar, Bool.or_eq_true, Bool.and_eq_true, hstands, ih]
    constructor
    · rintro (h | ⟨ha, u, v, rfl, hu, h⟩)
      · exact ⟨[], a :: text, rfl, by simp, h⟩
      · exact ⟨a :: u, v, rfl, forall_mem_cons.mpr ⟨ha, hu⟩, h⟩
    · rintro ⟨u, v, htext, hu, h⟩
      cases u with
      | nil => exact .inl (htext ▸ h)
      | cons b u =>
        cases htext
        obtain ⟨ha, hu⟩ := forall_mem_cons.mp hu
        exact .inr ⟨ha, u, v, rfl, hu, h⟩

/-- `matchhere` looks for the items at the beginning of the text. -/
theorem matchhere_iff (re text : List Char) : matchhere re text = true ↔ ∃ found after,
    text = found ++ after ∧ found ∈ language (readItems re).1 ∧
      ((readItems re).2 = true → after = []) := by
  fun_induction readItems re generalizing text with
  | case1 => exact iff_of_true (by rw [matchhere]) ⟨[], text, rfl, Language.nil_mem_one, nofun⟩
  | case2 c re ih =>
    rw [matchhere, matchstar_iff]
    simp only [ih, mem_language_cons, Item.language, if_true, mem_star]
    constructor
    · rintro ⟨u, v, rfl, hu, found, after, rfl, hfound, hafter⟩
      exact ⟨u ++ found, after, (append_assoc ..).symm, ⟨u, hu, found, hfound, rfl⟩, hafter⟩
    · rintro ⟨_, after, rfl, ⟨u, hu, found, hfound, rfl⟩, hafter⟩
      exact ⟨u, found ++ after, List.append_assoc .., hu, found, after, rfl, hfound, hafter⟩
  | case3 =>
    rw [matchhere, List.isEmpty_iff]
    constructor
    · rintro rfl
      exact ⟨[], [], rfl, Language.nil_mem_one, fun _ => rfl⟩
    · rintro ⟨found, after, rfl, hfound, hafter⟩
      rw [hafter rfl, (show found = [] from hfound)]
      rfl
  | case4 c re hstar hend ih =>
    cases text with
    | nil =>
      rw [matchhere.eq_4 _ _ hstar hend]
      refine iff_of_false nofun ?_
      rintro ⟨_, after, htext, ⟨_, ⟨a, rfl, -⟩, found, -, rfl⟩, -⟩
      cases htext
    | cons a text =>
      rw [matchhere.eq_5 _ _ _ _ hstar hend, Bool.and_eq_true, Bool.or_eq_true, beq_iff_eq,
        beq_iff_eq, ih]
      constructor
      · rintro ⟨ha, found, after, rfl, hfound, hafter⟩
        exact ⟨a :: found, after, rfl, ⟨[a], ⟨a, rfl, ha⟩, found, hfound, rfl⟩, hafter⟩
      · rintro ⟨_, after, htext, ⟨_, ⟨b, rfl, hb⟩, found, hfound, rfl⟩, hafter⟩
        cases htext
        exact ⟨hb, found, after, rfl, hfound, hafter⟩

/-- `match` passes over any characters, as `matchstar` does for `.`. -/
theorem matchLoop_eq (re text : List Char) :
    matchLoop re text = matchstar '.' (matchhere re) text := by
  induction text with
  | nil => rfl
  | cons a text ih => simp [matchLoop, matchstar, ih]

/-- `match` finds a pattern exactly if a substring is in its language, which is a prefix if the
pattern starts with `^` and a suffix if it ends with `$`. -/
theorem match_iff (re text : List Char) :
    matchRe re text = true ↔ (Pattern.read re).Matches text := by
  unfold Pattern.Matches
  fun_cases matchRe re text with
  | case1 re =>
    rw [matchhere_iff]
    constructor
    · rintro ⟨found, after, rfl, hfound, hafter⟩
      exact ⟨[], found, after, rfl, hfound, fun _ => rfl, hafter⟩
    · rintro ⟨before, found, after, rfl, hfound, hbefore, hafter⟩
      rw [hbefore rfl]
      exact ⟨found, after, rfl, hfound, hafter⟩
  | case2 _ hfirst =>
    simp only [Pattern.read, matchLoop_eq, matchstar_iff, matchhere_iff, true_or, implies_true,
      Bool.false_eq_true, false_implies, true_and]
    constructor
    · rintro ⟨before, _, rfl, found, after, rfl, h⟩
      exact ⟨before, found, after, (append_assoc ..).symm, h⟩
    · rintro ⟨before, found, after, rfl, h⟩
      exact ⟨before, found ++ after, append_assoc .., found, after, rfl, h⟩

end Xv6.Grep
