import Mathlib.Algebra.BigOperators.Group.List.Basic
import Mathlib.Algebra.GroupWithZero.Nat
import Mathlib.Data.List.Chain
import Mathlib.Tactic.Common

/-!
# Packing items into groups of a limited size

Items are packed in their order: the next item goes to the last group when it fits there, and
opens a new group otherwise.  An item that is larger than the limit is alone in its group.

## Main definitions

* `load` — the size of a group.
* `IsPacking` — the groups that items are packed into.

## Main results

* `IsPacking.grow`, `IsPacking.next` — **packing one more item.**
* `IsPacking.length_le` — **every two groups in a row are worth more than the limit.**
-/

namespace Packing

variable {α : Type*} {size : α → ℕ} {limit : ℕ}

/-- The size of a group. -/
def load (size : α → ℕ) (items : List α) : ℕ := (items.map size).sum

@[simp] theorem load_nil : load size [] = 0 := rfl

@[simp] theorem load_singleton (a : α) : load size [a] = size a := by
  simp [load]

@[simp] theorem load_append (l l' : List α) : load size (l ++ l') = load size l + load size l' := by
  simp [load]

/-- The groups of a packing: none is empty or, unless it has one item, too large, and none has
room for the first item of the next one. -/
structure IsPacking (size : α → ℕ) (limit : ℕ) (items : List α) (groups : List (List α)) :
    Prop where
  flatten : groups.flatten = items
  ne_nil : ∀ g ∈ groups, g ≠ []
  fits : ∀ g ∈ groups, load size g ≤ limit ∨ g.length = 1
  tight : groups.IsChain fun g g' => limit < load size g + load size (g'.take 1)

namespace IsPacking

variable {items : List α} {groups : List (List α)}

protected theorem nil : IsPacking size limit [] [] :=
  ⟨rfl, List.forall_mem_nil _, List.forall_mem_nil _, .nil⟩

/-- **The last group takes an item that fits.** -/
theorem grow {g : List α} (h : IsPacking size limit items (groups ++ [g])) {a : α}
    (ha : load size g + size a ≤ limit) :
    IsPacking size limit (items ++ [a]) (groups ++ [g ++ [a]]) := by
  obtain ⟨hinit, -, hlast⟩ := List.isChain_append.mp h.tight
  have hne : g ≠ [] := h.ne_nil g (by simp)
  refine ⟨by simp [← h.flatten], ?_, ?_, List.isChain_append.mpr ⟨hinit, .singleton _, ?_⟩⟩
  · intro g' hg'
    rcases List.mem_append.mp hg' with hg' | hg'
    · exact h.ne_nil g' (List.mem_append_left _ hg')
    · obtain rfl := List.mem_singleton.mp hg'
      simp
  · intro g' hg'
    rcases List.mem_append.mp hg' with hg' | hg'
    · exact h.fits g' (List.mem_append_left _ hg')
    · obtain rfl := List.mem_singleton.mp hg'
      left
      simpa using ha
  · -- the first item of the group has not changed
    intro x hx y hy
    obtain rfl : g ++ [a] = y := by simpa using hy
    have htake : (g ++ [a]).take 1 = g.take 1 := by
      cases g with
      | nil => exact absurd rfl hne
      | cons b g => rfl
    rw [htake]
    exact hlast x hx g (by simp)

/-- **An item that does not fit opens a group.** -/
theorem next (h : IsPacking size limit items groups) {a : α}
    (ha : ∀ g ∈ groups.getLast?, limit < load size g + size a) :
    IsPacking size limit (items ++ [a]) (groups ++ [[a]]) := by
  refine ⟨by simp [h.flatten], ?_, ?_, List.isChain_append.mpr ⟨h.tight, .singleton _, ?_⟩⟩
  · intro g hg
    rcases List.mem_append.mp hg with hg | hg
    · exact h.ne_nil g hg
    · obtain rfl := List.mem_singleton.mp hg
      simp
  · intro g hg
    rcases List.mem_append.mp hg with hg | hg
    · exact h.fits g hg
    · obtain rfl := List.mem_singleton.mp hg
      exact Or.inr rfl
  · intro x hx y hy
    obtain rfl : [a] = y := by simpa using hy
    simpa using ha x hx

/-- The first item of a group is no larger than the group. -/
theorem load_take_le (g : List α) : load size (g.take 1) ≤ load size g := by
  cases g with
  | nil => simp
  | cons a g => simp [load]

/-- Two groups in a row are worth more than the limit. -/
theorem mul_length_le : ∀ {groups : List (List α)},
    (groups.IsChain fun g g' => limit < load size g + load size (g'.take 1)) →
      limit * (groups.length / 2) ≤ load size groups.flatten
  | [], _ => by simp
  | [_], _ => by simp
  | g :: g' :: groups, h => by
    obtain ⟨hpair, hrest⟩ := List.isChain_cons_cons.mp h
    have hrest := mul_length_le hrest.tail
    have htake : load size (g'.take 1) ≤ load size g' := load_take_le g'
    have hlength : (g :: g' :: groups).length / 2 = groups.length / 2 + 1 := by
      simp only [List.length_cons]
      omega
    rw [hlength, Nat.mul_add, Nat.mul_one]
    simp only [List.flatten_cons, load_append, List.tail_cons] at hrest ⊢
    omega

/-- **A packing has few groups.** -/
theorem length_le (h : IsPacking size limit items groups) :
    limit * (groups.length / 2) ≤ load size items := by
  rw [← h.flatten]
  exact mul_length_le h.tight

end IsPacking

end Packing
