import Mathlib.Data.List.Basic
import Mathlib.Data.List.Induction
import Mathlib.Tactic.Common

/-!
# Lists whose elements replace earlier ones

A list that is extended at its end, where an element may replace some of those before it.
Each extension builds the whole list anew, so that all elements get to replace again; in a
list where nothing is left to be replaced only the new one does.

## Main definitions

* `refold` — build a list anew, each element dropping those before it that it replaces.
* `unreplaced` — the elements that no later one replaces.
* `Settled` — no element is replaced by a later one.

## Main results

* `refold_eq` — what is left is what no later element replaces.
* `foldl_refold_eq` — **extending a settled list by one element after the other.**
* `getLast?_of_mem_unreplaced` — of elements that replace each other the last is left.
-/

namespace Replacing

variable {α β : Type*} {replaces : α → α → Bool} {l m : List α} {a : α}

variable (replaces) in
/-- Build a list anew: each element drops those before it that it replaces. -/
def refold (l : List α) : List α :=
  l.foldl (fun kept a => kept.filter (fun b => !replaces a b) ++ [a]) []

variable (replaces) in
/-- The elements that no later one replaces. -/
def unreplaced : List α → List α
  | [] => []
  | a :: l => if l.any (replaces · a) then unreplaced l else a :: unreplaced l

variable (replaces) in
/-- No element is replaced by a later one. -/
def Settled (l : List α) : Prop := l.Pairwise fun a b => replaces b a = false

/-! ### What is left -/

theorem unreplaced_sublist (l : List α) : (unreplaced replaces l).Sublist l := by
  induction l with
  | nil => exact List.Sublist.refl _
  | cons a l ih =>
    rw [unreplaced]
    split
    · exact ih.cons a
    · exact ih.cons_cons a

/-- Of a list that goes on, the first part loses what the second replaces. -/
theorem unreplaced_append (l m : List α) :
    unreplaced replaces (l ++ m) =
      (unreplaced replaces l).filter (fun a => !m.any (replaces · a)) ++ unreplaced replaces m := by
  induction l with
  | nil => rfl
  | cons a l ih =>
    rw [List.cons_append, unreplaced, unreplaced, List.any_append, ih]
    cases hl : l.any (replaces · a) with
    | true => simp
    | false => cases hm : m.any (replaces · a) <;> simp [hm]

theorem unreplaced_singleton (a : α) : unreplaced replaces [a] = [a] := rfl

/-- **What a list that is built anew is left with.** -/
theorem refold_eq (l : List α) : refold replaces l = unreplaced replaces l := by
  unfold refold
  induction l using List.reverseRecOn with
  | nil => rfl
  | append_singleton l a ih =>
    rw [List.foldl_concat, ih, unreplaced_append, unreplaced_singleton]
    simp

/-! ### Settled lists -/

theorem Settled.sublist (h : Settled replaces m) (hl : l.Sublist m) : Settled replaces l :=
  List.Pairwise.sublist hl h

/-- A list is settled when what its elements stand for is. -/
theorem settled_map {replaces' : β → β → Bool} {f : α → β} :
    Settled replaces' (l.map f) ↔ Settled (fun a b => replaces' (f a) (f b)) l :=
  List.pairwise_map

theorem settled_unreplaced (l : List α) : Settled replaces (unreplaced replaces l) := by
  induction l with
  | nil => exact List.Pairwise.nil
  | cons a l ih =>
    rw [unreplaced]
    split
    · exact ih
    · next hnone =>
      refine List.pairwise_cons.mpr ⟨fun b hb => ?_, ih⟩
      have hb := (unreplaced_sublist l).subset hb
      rw [Bool.not_eq_true, List.any_eq_false] at hnone
      exact Bool.not_eq_true _ ▸ hnone b hb

/-- Nothing is replaced in a settled list. -/
theorem Settled.unreplaced_eq (h : Settled replaces l) : unreplaced replaces l = l := by
  induction l with
  | nil => rfl
  | cons a l ih =>
    obtain ⟨ha, hl⟩ := List.pairwise_cons.mp h
    have hnone : l.any (replaces · a) = false := by simpa using ha
    rw [unreplaced, hnone, ih hl]
    rfl

/-- Building a settled list anew with one more element, only that one replaces any. -/
theorem Settled.refold_concat (h : Settled replaces l) (a : α) :
    refold replaces (l ++ [a]) = l.filter (fun b => !replaces a b) ++ [a] := by
  rw [refold_eq, unreplaced_append, h.unreplaced_eq, unreplaced_singleton]
  simp

/-- **Extending a settled list by one element after the other.** -/
theorem foldl_refold_eq (h : Settled replaces l) (m : List α) :
    m.foldl (fun kept a => refold replaces (kept ++ [a])) l =
      l.filter (fun a => !m.any (replaces · a)) ++ unreplaced replaces m := by
  have hfold : m.foldl (fun kept a => refold replaces (kept ++ [a])) l =
      unreplaced replaces (l ++ m) := by
    induction m using List.reverseRecOn with
    | nil => rw [List.append_nil, h.unreplaced_eq, List.foldl_nil]
    | append_singleton m a ih =>
      rw [List.foldl_concat, ih, (settled_unreplaced _).refold_concat, ← List.append_assoc,
        unreplaced_append _ [a], unreplaced_singleton]
      simp
  rw [hfold, unreplaced_append, h.unreplaced_eq]

/-! ### Elements that replace each other -/

section Class

variable {p : α → Bool} (hp : ∀ a b, p a = true → p b = true → replaces a b = true)

include hp

/-- At most one of them is left. -/
theorem Settled.length_filter_le (h : Settled replaces l) : (l.filter p).length ≤ 1 := by
  have hsettled : Settled replaces (l.filter p) := h.sublist List.filter_sublist
  have hall : ∀ a ∈ l.filter p, p a = true := fun a ha => (List.mem_filter.mp ha).2
  cases hfilter : l.filter p with
  | nil => exact Nat.zero_le _
  | cons a rest =>
    rw [hfilter] at hsettled hall
    cases rest with
    | nil => exact Nat.le_refl 1
    | cons b rest =>
      have hab := List.rel_of_pairwise_cons hsettled List.mem_cons_self
      rw [hp b a (hall b (by simp)) (hall a (by simp))] at hab
      cases hab

/-- The one that is left is the last. -/
theorem getLast?_of_mem_unreplaced (ha : a ∈ unreplaced replaces l) (hpa : p a = true) :
    (l.filter p).getLast? = some a := by
  induction l with
  | nil => cases ha
  | cons b l ih =>
    have hlater : a ∈ unreplaced replaces l → ((b :: l).filter p).getLast? = some a := by
      intro ha
      rw [List.filter_cons]
      split
      · rw [List.getLast?_cons, ih ha, Option.getD_some]
      · exact ih ha
    rw [unreplaced] at ha
    split at ha
    · exact hlater ha
    · next hnone =>
      rcases List.mem_cons.mp ha with rfl | ha
      · have hlast : l.filter p = [] := by
          refine List.filter_eq_nil_iff.mpr fun c hc hpc => hnone ?_
          exact List.any_eq_true.mpr ⟨c, hc, hp c a hpc hpa⟩
        rw [List.filter_cons_of_pos hpa, hlast]
        rfl
      · exact hlater ha

end Class

end Replacing
