import Mathlib.Logic.Relation
import Mathlib.Order.WellFounded
import Mathlib.Tactic.Common

/-!
# Marks that spread in a forest

Marks spread over the nodes of a forest that have some property: from a marked parent to a
child, and from the children, when all are marked, to the parent.  A root counts as the
child of a marked node, and a leaf has no unmarked child.

## Main definitions

* `Forest` — a parent function without infinite ways up or down.
* `Forest.Above` — one node is a proper ancestor of another.
* `Forest.Marked` — the least set of marks.

## Main results

* `Forest.marked_iff` — **a node is marked exactly when it has the property, and all its
  proper ancestors have it or all its descendants.**
-/

open Relation

/-- Nodes with parents, without infinite ways up or down. -/
structure Forest (ι : Type*) where
  parent : ι → Option ι
  wellFounded_up : WellFounded fun a i => parent i = some a
  wellFounded_down : WellFounded fun c i => parent c = some i

namespace Forest

variable {ι : Type*} (F : Forest ι) (p : ι → Prop)

/-- A node is a proper ancestor of another one, which is its descendant. -/
def Above : ι → ι → Prop := TransGen fun a i => F.parent i = some a

/-- The marks: the least set closed under both ways of spreading. -/
inductive Marked : ι → Prop
  /-- A root with the property. -/
  | root {i} : p i → F.parent i = none → Marked i
  /-- A node with the property below a marked one. -/
  | parent {i a} : p i → F.parent i = some a → Marked a → Marked i
  /-- A node with the property whose children are all marked. -/
  | children {i} : p i → (∀ c, F.parent c = some i → Marked c) → Marked i

variable {F p} {a i : ι}

theorem above_of_parent (h : F.parent i = some a) : F.Above a i := .single h

theorem Above.trans {b : ι} (h : F.Above a i) (h' : F.Above i b) : F.Above a b :=
  TransGen.trans h h'

/-- The proper ancestors of a node are its parent and those of its parent. -/
theorem above_iff_parent : F.Above a i ↔ ∃ b, F.parent i = some b ∧ (a = b ∨ F.Above a b) := by
  refine Iff.trans TransGen.tail'_iff ?_
  constructor
  · rintro ⟨b, hab, hb⟩
    exact ⟨b, hb, (reflTransGen_iff_eq_or_transGen.mp hab).imp Eq.symm id⟩
  · rintro ⟨b, hb, hab⟩
    exact ⟨b, reflTransGen_iff_eq_or_transGen.mpr (hab.imp Eq.symm id), hb⟩

/-- The descendants of a node are its children and those of its children. -/
theorem above_iff_child : F.Above a i ↔ ∃ c, F.parent c = some a ∧ (i = c ∨ F.Above c i) := by
  refine Iff.trans TransGen.head'_iff ?_
  constructor
  · rintro ⟨c, hc, hci⟩
    exact ⟨c, hc, reflTransGen_iff_eq_or_transGen.mp hci⟩
  · rintro ⟨c, hc, hci⟩
    exact ⟨c, hc, reflTransGen_iff_eq_or_transGen.mpr hci⟩

/-- Marks spread down from the roots while the property holds. -/
theorem marked_of_ancestors (h : ∀ a, F.Above a i → p a) (hi : p i) : F.Marked p i := by
  induction i using F.wellFounded_up.induction with
  | _ i ih =>
    cases hparent : F.parent i with
    | none => exact .root hi hparent
    | some a =>
      have ha := above_of_parent hparent
      exact .parent hi hparent (ih a hparent (fun b hb => h b (hb.trans ha)) (h a ha))

/-- Marks spread up from the leaves while the property holds. -/
theorem marked_of_descendants (h : ∀ d, F.Above i d → p d) (hi : p i) : F.Marked p i := by
  induction i using F.wellFounded_down.induction with
  | _ i ih =>
    refine .children hi fun c hc => ?_
    have hic := above_of_parent hc
    exact ih c hc (fun d hd => h d (hic.trans hd)) (h c hic)

/-- **The marks in closed form.** -/
theorem marked_iff :
    F.Marked p i ↔ p i ∧ ((∀ a, F.Above a i → p a) ∨ ∀ d, F.Above i d → p d) := by
  constructor
  · intro h
    induction h with
    | root hi hparent =>
      refine ⟨hi, Or.inl fun a ha => ?_⟩
      obtain ⟨b, hb, -⟩ := above_iff_parent.mp ha
      rw [hparent] at hb
      cases hb
    | @parent i a hi hparent _ ih =>
      refine ⟨hi, ih.2.imp (fun hup b hb => ?_) fun hdown d hd =>
        hdown d ((above_of_parent hparent).trans hd)⟩
      obtain ⟨b', hb', hbb'⟩ := above_iff_parent.mp hb
      obtain rfl : a = b' := Option.some.inj (hparent.symm.trans hb')
      rcases hbb' with rfl | hab
      · exact ih.1
      · exact hup b hab
    | @children i hi _ ih =>
      refine ⟨hi, ?_⟩
      -- one child that is marked from above shows the ancestors, else all are from below
      by_cases hup : ∃ c, F.parent c = some i ∧ ∀ a, F.Above a c → p a
      · obtain ⟨c, hc, hanc⟩ := hup
        exact Or.inl fun a ha => hanc a (ha.trans (above_of_parent hc))
      · refine Or.inr fun d hd => ?_
        obtain ⟨c, hc, hcd⟩ := above_iff_child.mp hd
        obtain ⟨hpc, hcases⟩ := ih c hc
        rcases hcd with rfl | hcd
        · exact hpc
        · exact hcases.resolve_left (fun hanc => hup ⟨c, hc, hanc⟩) d hcd
  · rintro ⟨hi, h | h⟩
    · exact marked_of_ancestors h hi
    · exact marked_of_descendants h hi

end Forest
