import Mathlib.Data.List.Chain
import Mathlib.Data.List.Nodup

/-!
# Circular doubly linked lists

The operations of a circular list that is threaded through its nodes by two pointers, with a head
that is a node itself, and their effect on the list of nodes. What lies outside the nodes of a list
is left alone, so that several lists can share one memory.
-/

namespace Circular

open Function List

variable {α : Type} [DecidableEq α]

/-- The two pointers of every node. -/
structure Pointers (α : Type) where
  next : α → α
  prev : α → α

namespace Pointers

/-- Whether the list with this head has no other nodes. -/
def isEmpty (m : Pointers α) (head : α) : Bool := m.next head = head

/-- Take a node out of its list. -/
def remove (m : Pointers α) (e : α) : Pointers α :=
  let m := { m with next := update m.next (m.prev e) (m.next e) }
  { m with prev := update m.prev (m.next e) (m.prev e) }

/-- Put a node behind the head of a list. -/
def push (m : Pointers α) (head e : α) : Pointers α :=
  let m := { m with next := update m.next e (m.next head) }
  let m := { m with prev := update m.prev e head }
  let m := { m with prev := update m.prev (m.next head) e }
  { m with next := update m.next head e }

end Pointers

/-- Neighbours in the list are linked both ways. -/
def Linked (m : Pointers α) (nodes : List α) : Prop :=
  nodes.IsChain fun a b => m.next a = b ∧ m.prev b = a

/-- The list with this head has the nodes `xs`. -/
structure Ring (m : Pointers α) (head : α) (xs : List α) : Prop where
  nodup : (head :: xs).Nodup
  linked : Linked m (head :: xs ++ [head])

variable {m m' : Pointers α} {head e : α} {xs : List α}

omit [DecidableEq α] in
/-- Links depend on the right pointers of all nodes but the last, and the left ones of all but the
first. -/
theorem Linked.congr {nodes : List α} (h : Linked m nodes)
    (hnext : ∀ a ∈ nodes.dropLast, m'.next a = m.next a)
    (hprev : ∀ b ∈ nodes.tail, m'.prev b = m.prev b) : Linked m' nodes := by
  induction nodes with
  | nil => exact .nil
  | cons a nodes ih =>
    cases nodes with
    | nil => exact .singleton _
    | cons b nodes =>
      rw [Linked, isChain_cons_cons] at h ⊢
      refine ⟨⟨?_, ?_⟩, ih h.2 (fun c hc => ?_) fun c hc => ?_⟩
      · rw [hnext a mem_cons_self, h.1.1]
      · rw [hprev b mem_cons_self, h.1.2]
      · exact hnext c (mem_cons_of_mem a hc)
      · exact hprev c (mem_cons_of_mem b hc)

namespace Ring

omit [DecidableEq α] in
/-- A list depends on the pointers of its nodes only. -/
theorem congr (h : Ring m head xs) (hnext : ∀ a ∈ head :: xs, m'.next a = m.next a)
    (hprev : ∀ a ∈ head :: xs, m'.prev a = m.prev a) : Ring m' head xs where
  nodup := h.nodup
  linked := by
    refine h.linked.congr (fun a ha => hnext a ?_) fun b hb => hprev b ?_
    · rwa [dropLast_concat] at ha
    · rw [cons_append, tail_cons] at hb
      simpa [or_comm] using hb

omit [DecidableEq α] in
theorem next_head (h : Ring m head xs) : (xs ++ [head]).head? = some (m.next head) := by
  have hlinked := h.linked
  rw [Linked, cons_append, isChain_cons] at hlinked
  cases hxs : xs ++ [head] with
  | nil => simp at hxs
  | cons y ys =>
    rw [hxs] at hlinked
    rw [(hlinked.1 y rfl).1]
    rfl

theorem isEmpty_iff (h : Ring m head xs) : m.isEmpty head = true ↔ xs = [] := by
  have hnext := h.next_head
  have hnodup := h.nodup
  rw [Pointers.isEmpty, decide_eq_true_eq]
  cases xs with
  | nil =>
    have hhead : head = m.next head := by simpa using hnext
    exact ⟨fun _ => rfl, fun _ => hhead.symm⟩
  | cons x xs =>
    have hx : x = m.next head := by simpa using hnext
    have hne : head ≠ x := by
      rintro rfl
      simp at hnodup
    constructor
    · intro hsame
      exact absurd (hsame.symm.trans hx.symm) hne
    · rintro ⟨⟩

variable {before after : List α}

omit [DecidableEq α] in
theorem neighbours (h : Ring m head (before ++ e :: after)) :
    ∃ front a b back, head :: before = front ++ [a] ∧ after ++ [head] = b :: back ∧
      m.prev e = a ∧ m.next e = b ∧ Linked m (front ++ [a]) ∧ Linked m (b :: back) := by
  obtain ⟨front, a, hfront⟩ : ∃ front a, head :: before = front ++ [a] :=
    ⟨(head :: before).dropLast, (head :: before).getLast (by simp),
      (dropLast_append_getLast _).symm⟩
  obtain ⟨b, back, hback⟩ : ∃ b back, after ++ [head] = b :: back := by
    cases after with
    | nil => exact ⟨head, [], rfl⟩
    | cons b after => exact ⟨b, after ++ [head], rfl⟩
  have hlinked := h.linked
  have hlist : head :: (before ++ e :: after) ++ [head] = front ++ a :: e :: b :: back := by
    rw [← cons_append, hfront]
    simp [hback]
  rw [Linked, hlist, isChain_append_cons_cons, isChain_cons_cons] at hlinked
  obtain ⟨hleft, ⟨-, hprev⟩, ⟨hnext, -⟩, hright⟩ := hlinked
  exact ⟨front, a, b, back, hfront, hback, hprev, hnext, hleft, hright⟩

theorem remove (h : Ring m head (before ++ e :: after)) :
    Ring (m.remove e) head (before ++ after) := by
  obtain ⟨front, a, b, back, hfront, hback, hprev, hnext, hleft, hright⟩ := h.neighbours
  have hnodup := h.nodup
  have hnodup' : (head :: (before ++ after)).Nodup := by
    refine hnodup.sublist ?_
    exact (List.Sublist.append_left (sublist_cons_self e after) before).cons_cons head
  have hne : a ≠ e := by
    have hmem : a ∈ head :: before := by
      rw [hfront]
      simp
    rintro rfl
    rw [← cons_append, nodup_append] at hnodup
    exact hnodup.2.2 a hmem a mem_cons_self rfl
  have hnext' : (m.remove e).next = update m.next a b := by
    simp only [Pointers.remove, hprev, hnext]
  have hprev' : (m.remove e).prev = update m.prev b a := by
    simp only [Pointers.remove, hprev, hnext]
    rw [update_of_ne (Ne.symm hne), hnext]
  -- the nodes before the gap, and those behind it
  have hapart : ∀ x ∈ head :: before, ∀ y ∈ after, x ≠ y := by
    rw [← cons_append, nodup_append] at hnodup'
    exact hnodup'.2.2
  have hbefore : (head :: before).Nodup := by
    rw [← cons_append, nodup_append] at hnodup'
    exact hnodup'.1
  have hafter : (after ++ [head]).Nodup := by
    have hswap : (after ++ [head]).Perm (head :: after) := perm_append_singleton head after
    rw [hswap.nodup_iff]
    exact hnodup'.sublist ((sublist_append_right before after).cons_cons head)
  refine ⟨hnodup', ?_⟩
  have hlist : head :: (before ++ after) ++ [head] = front ++ a :: b :: back := by
    rw [← cons_append, append_assoc, hfront, hback]
    simp
  rw [Linked, hlist, isChain_append_cons_cons]
  refine ⟨hleft.congr (fun x hx => ?_) fun y hy => ?_, ⟨?_, ?_⟩,
    hright.congr (fun x hx => ?_) fun y hy => ?_⟩
  · rw [dropLast_concat] at hx
    rw [hnext', update_of_ne]
    rintro rfl
    rw [hfront, nodup_append] at hbefore
    exact hbefore.2.2 x hx x mem_cons_self rfl
  · rw [← hfront, tail_cons] at hy
    rw [hprev', update_of_ne]
    rintro rfl
    have hmem : y ∈ after ++ [head] := by
      rw [hback]
      exact mem_cons_self
    rcases mem_append.mp hmem with hmem | hmem
    · exact hapart y (mem_cons_of_mem head hy) y hmem rfl
    · obtain rfl := mem_singleton.mp hmem
      exact (nodup_cons.mp hbefore).1 hy
  · rw [hnext', update_self]
  · rw [hprev', update_self]
  · rw [← hback, dropLast_concat] at hx
    rw [hnext', update_of_ne]
    rintro rfl
    refine hapart x ?_ x hx rfl
    rw [hfront]
    simp
  · rw [tail_cons] at hy
    rw [hprev', update_of_ne]
    rintro rfl
    rw [hback] at hafter
    exact (nodup_cons.mp hafter).1 hy

section

variable (h : Ring m head xs)
include h

/-- Taking a node out leaves the pointers of other lists alone. -/
theorem remove_of_not_mem (he : e ∈ xs) {x : α} (hx : x ∉ head :: xs) :
    (m.remove e).next x = m.next x ∧ (m.remove e).prev x = m.prev x := by
  obtain ⟨before, after, rfl⟩ := append_of_mem he
  obtain ⟨front, a, b, back, hfront, hback, hprev, hnext, -, -⟩ := h.neighbours
  have ha : a ∈ head :: before := by
    rw [hfront]
    simp
  have hb : b ∈ after ++ [head] := by
    rw [hback]
    exact mem_cons_self
  have hxa : x ≠ a := by
    rintro rfl
    simp only [mem_cons, mem_append] at ha hx
    tauto
  have hxb : x ≠ b := by
    rintro rfl
    simp only [mem_cons, mem_append, not_mem_nil, or_false] at hb hx
    tauto
  have hne : e ≠ a ∨ e = a := (em _).symm
  simp only [Pointers.remove, hprev, hnext]
  refine ⟨update_of_ne hxa _ _, ?_⟩
  rcases hne with hne | rfl
  · rw [update_of_ne hne, hnext, update_of_ne hxb]
  · rw [update_self, update_of_ne hxb]

theorem push (he : e ∉ head :: xs) : Ring (m.push head e) head (e :: xs) := by
  obtain ⟨y, ys, hys⟩ : ∃ y ys, xs ++ [head] = y :: ys := by
    cases xs with
    | nil => exact ⟨head, [], rfl⟩
    | cons y xs => exact ⟨y, xs ++ [head], rfl⟩
  have hfirst : m.next head = y := by
    have hnext := h.next_head
    rw [hys] at hnext
    exact (Option.some.inj hnext).symm
  have hhead : head ≠ e := fun heq => he (heq ▸ mem_cons_self)
  have hy : y ∈ head :: xs := by
    have hmem : y ∈ xs ++ [head] := by
      rw [hys]
      exact mem_cons_self
    simpa [or_comm] using hmem
  have hye : y ≠ e := fun heq => he (heq ▸ hy)
  have hnext' : (m.push head e).next = update (update m.next e y) head e := by
    simp only [Pointers.push, hfirst]
  have hprev' : (m.push head e).prev = update (update m.prev e head) y e := by
    simp only [Pointers.push, hfirst]
    rw [update_of_ne hhead, hfirst]
  have hnodup : (xs ++ [head]).Nodup := by
    have hswap : (xs ++ [head]).Perm (head :: xs) := perm_append_singleton head xs
    rw [hswap.nodup_iff]
    exact h.nodup
  constructor
  · have hswap : (head :: e :: xs).Perm (e :: head :: xs) := List.Perm.swap e head xs
    rw [hswap.nodup_iff, nodup_cons]
    exact ⟨he, h.nodup⟩
  · have hlinked := h.linked
    rw [cons_append, hys, Linked, isChain_cons_cons] at hlinked
    rw [cons_append, cons_append, hys, Linked, isChain_cons_cons, isChain_cons_cons]
    refine ⟨⟨?_, ?_⟩, ⟨?_, ?_⟩, Linked.congr hlinked.2 (fun x hx => ?_) fun x hx => ?_⟩
    · rw [hnext', update_self]
    · rw [hprev', update_of_ne (Ne.symm hye), update_self]
    · rw [hnext', update_of_ne (Ne.symm hhead), update_self]
    · rw [hprev', update_self]
    · rw [← hys, dropLast_concat] at hx
      have hxe : x ≠ e := fun heq => he (mem_cons_of_mem head (heq ▸ hx))
      have hxhead : x ≠ head := fun heq => (nodup_cons.mp h.nodup).1 (heq ▸ hx)
      rw [hnext', update_of_ne hxhead, update_of_ne hxe]
    · rw [tail_cons] at hx
      have hmem : x ∈ xs ++ [head] := by
        rw [hys]
        exact mem_cons_of_mem y hx
      have hxe : x ≠ e := by
        rintro rfl
        exact he (by simpa [or_comm] using hmem)
      have hxy : x ≠ y := by
        rintro rfl
        rw [hys] at hnodup
        exact (nodup_cons.mp hnodup).1 hx
      rw [hprev', update_of_ne hxy, update_of_ne hxe]

/-- Putting a node into a list leaves the pointers of other lists alone. -/
theorem push_of_not_mem {x : α} (hx : x ∉ head :: xs) (hxe : x ≠ e) :
    (m.push head e).next x = m.next x ∧ (m.push head e).prev x = m.prev x := by
  have hnext := h.next_head
  have hfirst : m.next head ∈ head :: xs := by
    have hmem : m.next head ∈ xs ++ [head] := mem_of_mem_head? hnext
    simpa [or_comm] using hmem
  have hxhead : x ≠ head := fun heq => hx (heq ▸ mem_cons_self)
  have hxfirst : x ≠ m.next head := fun heq => hx (heq ▸ hfirst)
  simp only [Pointers.push]
  constructor
  · rw [update_of_ne hxhead, update_of_ne hxe]
  · have hthird : x ≠ update m.next e (m.next head) head := by
      by_cases hhead : head = e
      · subst hhead
        rwa [update_self]
      · rwa [update_of_ne hhead]
    rw [update_of_ne hthird, update_of_ne hxe]

end

end Ring

/-- Several lists with these heads in one memory, no two of which have a node in common. -/
structure Family {ι : Type} (m : Pointers α) (head : ι → α) (elems : ι → List α) : Prop where
  ring : ∀ i, Ring m (head i) (elems i)
  apart : ∀ i j, i ≠ j → ∀ x ∈ head i :: elems i, x ∉ head j :: elems j

namespace Family

variable {ι : Type} [DecidableEq ι] {head : ι → α} {elems : ι → List α} {i : ι}

omit [DecidableEq α] in
/-- The rule for an operation on one list, which leaves the pointers of the others alone. -/
theorem change (h : Family m head elems) (hring : Ring m' (head i) xs)
    (hothers : ∀ j, j ≠ i → (∀ x ∈ head i :: xs, x ∉ head j :: elems j) ∧
      ∀ x ∈ head j :: elems j, m'.next x = m.next x ∧ m'.prev x = m.prev x) :
    Family m' head (update elems i xs) where
  ring := by
    refine (forall_update_iff elems fun j ys => Ring m' (head j) ys).mpr ⟨hring, fun j hj => ?_⟩
    have hframe := (hothers j hj).2
    exact (h.ring j).congr (fun x hx => (hframe x hx).1) fun x hx => (hframe x hx).2
  apart := by
    intro j k hjk x hx hmem
    by_cases hj : j = i
    · subst hj
      rw [update_self] at hx
      rw [update_of_ne (Ne.symm hjk)] at hmem
      exact (hothers k (Ne.symm hjk)).1 x hx hmem
    · rw [update_of_ne hj] at hx
      by_cases hk : k = i
      · subst hk
        rw [update_self] at hmem
        exact (hothers j hj).1 x hmem hx
      · rw [update_of_ne hk] at hmem
        exact h.apart j k hjk x hx hmem

theorem push (h : Family m head elems) (i : ι) (he : ∀ j, e ∉ head j :: elems j) :
    Family (m.push (head i) e) head (update elems i (e :: elems i)) := by
  refine h.change ((h.ring i).push (he i)) fun j hj => ⟨fun x hx => ?_, fun x hx => ?_⟩
  · rcases mem_cons.mp (List.Perm.mem_iff (List.Perm.swap e (head i) (elems i)) |>.mp hx) with
      rfl | hold
    · exact he j
    · exact h.apart i j (Ne.symm hj) x hold
  · exact (h.ring i).push_of_not_mem (h.apart j i hj x hx) fun heq => he j (heq ▸ hx)

theorem remove {before after : List α} (h : Family m head elems)
    (hi : elems i = before ++ e :: after) :
    Family (m.remove e) head (update elems i (before ++ after)) := by
  have hring := h.ring i
  have hmem : e ∈ elems i := by simp [hi]
  refine h.change ?_ fun j hj => ⟨fun x hx => h.apart i j (Ne.symm hj) x ?_, fun x hx => ?_⟩
  · rw [hi] at hring
    exact hring.remove
  · have hsublist : (before ++ after).Sublist (before ++ e :: after) :=
      (sublist_cons_self e after).append_left before
    rw [hi]
    exact cons_subset_cons _ hsublist.subset hx
  · exact hring.remove_of_not_mem hmem (h.apart j i hj x hx)

end Family

end Circular
