import Mathlib.Data.List.Basic
import Mathlib.Data.List.Infix
import Mathlib.Tactic.Common

/-!
# The pieces of a list

A list is split at its separators and of every piece only the kept elements stay; a piece
that keeps none is left out.

## Main definitions

* `pieces` — the pieces of a list, for a test of separators and one of what is kept.

## Main results

* `pieces_filter`, `pieces_congr` — elements that are neither separators nor kept play no
  part, and only the separators in the list do.
* `pieces_append_cons` — a separator ends a piece.
* `pieces_intercalate` — **labels joined by a separator are read back.**
-/

namespace Splitting

variable {α β : Type*} {p p' q r : α → Bool} {l m : List α}

/-! ### Splitting a mapped or filtered list -/

theorem splitOnP_congr : ∀ {l : List α}, (∀ c ∈ l, p c = p' c) → l.splitOnP p = l.splitOnP p'
  | [], _ => rfl
  | c :: l, h => by
    rw [List.splitOnP_cons_eq_if_modifyHead, List.splitOnP_cons_eq_if_modifyHead,
      h c List.mem_cons_self, splitOnP_congr fun d hd => h d (.tail _ hd)]

theorem splitOnP_map (f : β → α) : ∀ l : List β,
    (l.map f).splitOnP p = (l.splitOnP (p ∘ f)).map (List.map f)
  | [] => rfl
  | c :: l => by
    rw [List.map_cons, List.splitOnP_cons_eq_if_modifyHead, List.splitOnP_cons_eq_if_modifyHead,
      splitOnP_map f l]
    obtain ⟨t, ts, hts⟩ := List.exists_cons_of_ne_nil (List.splitOnP_ne_nil (p ∘ f) l)
    rw [hts]
    by_cases hc : p (f c) = true
    · simp [hc]
    · simp [hc]

/-- Separators are kept, so what is dropped does not move a boundary. -/
theorem splitOnP_filter (h : ∀ c, p c = true → r c = true) : ∀ l : List α,
    (l.filter r).splitOnP p = (l.splitOnP p).map (List.filter r)
  | [] => rfl
  | c :: l => by
    rw [List.splitOnP_cons_eq_if_modifyHead]
    obtain ⟨t, ts, hts⟩ := List.exists_cons_of_ne_nil (List.splitOnP_ne_nil p l)
    by_cases hp : p c = true
    · rw [List.filter_cons_of_pos (h c hp), List.splitOnP_cons_eq_if_modifyHead, if_pos hp,
        if_pos hp, splitOnP_filter h l, List.map_cons, List.filter_nil]
    · rw [if_neg hp, hts]
      by_cases hr : r c = true
      · rw [List.filter_cons_of_pos hr, List.splitOnP_cons_eq_if_modifyHead, if_neg hp,
          splitOnP_filter h l, hts]
        simp [hr]
      · rw [List.filter_cons_of_neg hr, splitOnP_filter h l, hts]
        simp [hr]

/-- A piece is made of elements of the list that are no separators. -/
theorem of_mem_splitOnP : ∀ {l t : List α}, t ∈ l.splitOnP p → ∀ c ∈ t, c ∈ l ∧ p c = false
  | [], t, ht, c, hc => by
    obtain rfl : t = [] := by simpa using ht
    cases hc
  | d :: l, t, ht, c, hc => by
    rw [List.splitOnP_cons_eq_if_modifyHead] at ht
    obtain ⟨s, ss, hss⟩ := List.exists_cons_of_ne_nil (List.splitOnP_ne_nil p l)
    have ih : ∀ u ∈ l.splitOnP p, ∀ e ∈ u, e ∈ l ∧ p e = false := fun u hu => of_mem_splitOnP hu
    split at ht
    · rcases List.mem_cons.mp ht with rfl | ht
      · cases hc
      · exact ⟨.tail _ (ih t ht c hc).1, (ih t ht c hc).2⟩
    · next hd =>
      rw [hss] at ht ih
      rcases List.mem_cons.mp ht with rfl | ht
      · rcases List.mem_cons.mp hc with rfl | hc
        · exact ⟨List.mem_cons_self, by simpa using hd⟩
        · exact ⟨.tail _ (ih s List.mem_cons_self c hc).1, (ih s List.mem_cons_self c hc).2⟩
      · exact ⟨.tail _ (ih t (.tail _ ht) c hc).1, (ih t (.tail _ ht) c hc).2⟩

/-! ### Pieces -/

/-- The pieces between the separators, with what is kept of each, the empty ones left out. -/
def pieces (p q : α → Bool) (l : List α) : List (List α) :=
  ((l.splitOnP p).map (List.filter q)).filter fun t => !t.isEmpty

@[simp] theorem pieces_nil : pieces p q [] = [] := rfl

theorem pieces_congr (h : ∀ c ∈ l, p c = p' c) : pieces p q l = pieces p' q l := by
  rw [pieces, splitOnP_congr h, pieces]

/-- What is neither a separator nor kept plays no part. -/
theorem pieces_filter (hp : ∀ c, p c = true → r c = true) (hq : ∀ c, q c = true → r c = true) :
    pieces p q (l.filter r) = pieces p q l := by
  have hfilter : ∀ t : List α, (t.filter r).filter q = t.filter q := by
    intro t
    rw [List.filter_filter]
    refine List.filter_congr fun c _ => ?_
    by_cases hc : q c = true
    · rw [hc, hq c hc, Bool.and_self]
    · rw [Bool.not_eq_true] at hc
      rw [hc, Bool.false_and]
  rw [pieces, splitOnP_filter hp, List.map_map, pieces]
  exact congrArg (List.filter _) (List.map_congr_left fun t _ => hfilter t)

/-- A separator ends a piece. -/
theorem pieces_append_cons {sep : α} (hsep : p sep = true) (l m : List α) :
    pieces p q (l ++ sep :: m) = pieces p q l ++ pieces p q m := by
  rw [pieces, List.splitOnP_append_cons l m hsep, List.map_append, List.filter_append]
  rfl

/-- A list without a separator is one piece. -/
theorem pieces_eq_singleton (hne : l ≠ []) (h : ∀ c ∈ l, p c = false ∧ q c = true) :
    pieces p q l = [l] := by
  rw [pieces, List.splitOnP_eq_singleton fun c hc => (h c hc).1, List.map_singleton,
    List.filter_eq_self.mpr fun c hc => (h c hc).2]
  cases l with
  | nil => exact absurd rfl hne
  | cons => rfl

theorem mem_intercalate_singleton {sep c : α} : ∀ {labels : List (List α)},
    c ∈ [sep].intercalate labels → c = sep ∨ ∃ t ∈ labels, c ∈ t
  | [], h => by cases h
  | [t], h => Or.inr ⟨t, List.mem_cons_self, by rwa [List.intercalate_singleton] at h⟩
  | t :: t' :: labels, h => by
    rw [List.intercalate_cons_cons, List.append_assoc, List.mem_append] at h
    rcases h with h | h
    · exact Or.inr ⟨t, List.mem_cons_self, h⟩
    · rcases List.mem_cons.mp h with h | h
      · exact Or.inl h
      · rcases mem_intercalate_singleton h with h | ⟨u, hu, hcu⟩
        · exact Or.inl h
        · exact Or.inr ⟨u, .tail _ hu, hcu⟩

/-- **Labels joined by a separator are read back.** -/
theorem pieces_intercalate {sep : α} (hsep : p sep = true) : ∀ {labels : List (List α)},
    (∀ t ∈ labels, t ≠ [] ∧ ∀ c ∈ t, p c = false ∧ q c = true) →
      pieces p q ([sep].intercalate labels) = labels
  | [], _ => rfl
  | [t], h => by
    rw [List.intercalate_singleton]
    exact pieces_eq_singleton (h t List.mem_cons_self).1 (h t List.mem_cons_self).2
  | t :: t' :: labels, h => by
    have ht := h t List.mem_cons_self
    rw [List.intercalate_cons_cons, List.append_assoc, List.singleton_append,
      pieces_append_cons hsep, pieces_eq_singleton ht.1 ht.2,
      pieces_intercalate hsep fun s hs => h s (.tail _ hs)]
    rfl

end Splitting
