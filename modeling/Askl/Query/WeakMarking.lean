import Askl.Library.Forest
import Askl.Library.Runs
import Askl.Query.Tree

/-!
# The weak statements

The marking of weak statements goes over the statements of a query again and again, in the
order they are listed, until a pass marks no more.  A pass sees the marks it has made
itself.  Whatever the order, the statements that end up marked are the same.

## Main definitions

* `StatementTree.forest` — the statements as a forest; a top-level statement is a root.
* `StatementTree.markLoop` — `mark_weak_statements` over a list of statements.

## Main results

* `StatementTree.weak_iff` — the statements the executor finds.
* `StatementTree.mem_of_markLoop_iff` — **the marking ends, with the statements that are
  non-constraining and have only such ancestors or only such descendants.**
-/

namespace Askl

namespace StatementTree

variable {n : ℕ} (t : StatementTree n)

/-- The statements as a forest. -/
def forest : Forest (Fin n) where
  parent := t.parent
  wellFounded_up := Subrelation.wf (fun h => t.parent_lt h) (wellFounded_lt (α := Fin n))
  wellFounded_down := Subrelation.wf (fun h => t.parent_lt h) (wellFounded_gt (α := Fin n))

/-- Whether a statement has non-constraining selectors only. -/
def NonConstraining (i : Fin n) : Prop := (t.command i).isNonConstraining = true

/-! ### The passes -/

/-- One pass over the statements in the order they are listed; it changed something if
there are more marks after it. -/
def markPass (order : List (Fin n)) (weak : List (Fin n)) : List (Fin n) ⊕ List (Fin n) :=
  let weak' := order.foldl t.markWeak weak
  if weak' = weak then .inr weak else .inl weak'

/-- `mark_weak_statements`, for as many passes as the fuel allows. -/
def markLoop (order : List (Fin n)) (fuel : ℕ) : Option (List (Fin n)) :=
  Runs.loop (t.markPass order) fuel []

variable {t} {order weak : List (Fin n)}

theorem mem_markWeak {i j : Fin n} : j ∈ t.markWeak weak i ↔ j ∈ weak ∨
    (j = i ∧ t.NonConstraining i ∧
      (t.parentWeak weak i = true ∨ t.allChildrenWeak weak i = true)) := by
  rw [markWeak]
  split
  · next hi =>
    refine ⟨Or.inl, ?_⟩
    rintro (h | ⟨rfl, -⟩)
    · exact h
    · exact List.contains_iff_mem.mp hi
  · split
    · next h =>
      rw [Bool.and_eq_true, Bool.or_eq_true] at h
      rw [List.mem_cons]
      constructor
      · rintro (rfl | hj)
        · exact Or.inr ⟨rfl, h⟩
        · exact Or.inl hj
      · rintro (hj | ⟨rfl, -⟩)
        · exact Or.inr hj
        · exact Or.inl rfl
    · next h =>
      rw [Bool.and_eq_true, Bool.or_eq_true] at h
      refine ⟨Or.inl, ?_⟩
      rintro (hj | ⟨-, hmark⟩)
      · exact hj
      · exact absurd hmark h

theorem parentWeak_iff {i : Fin n} :
    t.parentWeak weak i = true ↔ ∀ a, t.parent i = some a → a ∈ weak := by
  rw [parentWeak]
  cases t.parent i with
  | none => simp
  | some p => simp

theorem allChildrenWeak_iff {i : Fin n} :
    t.allChildrenWeak weak i = true ↔ ∀ c, t.parent c = some i → c ∈ weak := by
  rw [allChildrenWeak, List.all_eq_true]
  simp

/-- A statement is marked only if the marks spread to it. -/
theorem marked_of_mem_markWeak {i : Fin n}
    (h : ∀ j ∈ weak, t.forest.Marked t.NonConstraining j) :
    ∀ j ∈ t.markWeak weak i, t.forest.Marked t.NonConstraining j := by
  intro j hj
  rcases mem_markWeak.mp hj with hj | ⟨rfl, hnc, hparent | hchildren⟩
  · exact h j hj
  · cases hp : t.parent j with
    | none => exact .root hnc hp
    | some a => exact .parent hnc hp (h a (parentWeak_iff.mp hparent a hp))
  · exact .children hnc fun c hc => h c (allChildrenWeak_iff.mp hchildren c hc)

theorem marked_of_mem_foldl (h : ∀ j ∈ weak, t.forest.Marked t.NonConstraining j) :
    ∀ j ∈ order.foldl t.markWeak weak, t.forest.Marked t.NonConstraining j := by
  induction order generalizing weak with
  | nil => exact h
  | cons i order ih => exact ih (marked_of_mem_markWeak h)

theorem subset_foldl : ∀ order weak : List (Fin n), weak ⊆ order.foldl t.markWeak weak
  | [], weak => List.Subset.refl weak
  | i :: order, weak => List.Subset.trans (fun _ hj => mem_markWeak.mpr (Or.inl hj))
      (subset_foldl order (t.markWeak weak i))

/-- A pass that changes nothing has marked all it could. -/
theorem mem_of_fixed (hfixed : order.foldl t.markWeak weak = weak) {i : Fin n}
    (hi : i ∈ order) (hnc : t.NonConstraining i)
    (h : t.parentWeak weak i = true ∨ t.allChildrenWeak weak i = true) : i ∈ weak := by
  obtain ⟨before, after, rfl⟩ := List.append_of_mem hi
  rw [List.foldl_append, List.foldl_cons] at hfixed
  -- the marks before this statement's turn are among the final ones, and so are its own
  set atTurn := before.foldl t.markWeak weak with hturn
  have hbefore : weak ⊆ atTurn := subset_foldl before weak
  have hmem : i ∈ t.markWeak atTurn i := by
    refine mem_markWeak.mpr (Or.inr ⟨rfl, hnc, h.imp (fun hp => ?_) fun hc => ?_⟩)
    · exact parentWeak_iff.mpr fun a ha => hbefore (parentWeak_iff.mp hp a ha)
    · exact allChildrenWeak_iff.mpr fun c hc' => hbefore (allChildrenWeak_iff.mp hc c hc')
  rw [← hfixed]
  exact subset_foldl after _ hmem

/-- The marks spread to a statement only if a fixed set of marks has it. -/
theorem mem_of_marked (horder : ∀ i, i ∈ order)
    (hfixed : order.foldl t.markWeak weak = weak) {i : Fin n}
    (h : t.forest.Marked t.NonConstraining i) : i ∈ weak := by
  induction h with
  | @root i hnc hparent =>
    refine mem_of_fixed hfixed (horder i) hnc (Or.inl (parentWeak_iff.mpr fun a ha => ?_))
    rw [show t.parent i = none from hparent] at ha
    cases ha
  | @parent i a hnc hparent _ ih =>
    refine mem_of_fixed hfixed (horder i) hnc (Or.inl (parentWeak_iff.mpr fun b hb => ?_))
    obtain rfl : a = b := Option.some.inj (Eq.trans (Eq.symm hparent) hb)
    exact ih
  | @children i hnc _ ih =>
    exact mem_of_fixed hfixed (horder i) hnc (Or.inr (allChildrenWeak_iff.mpr ih))

/-! ### The loop -/

/-- The marks of a loop that goes on are those of passes. -/
theorem markPass_inl {weak' : List (Fin n)} (h : t.markPass order weak = .inl weak') :
    weak' = order.foldl t.markWeak weak ∧ weak' ≠ weak := by
  simp only [markPass] at h
  split at h
  · cases h
  · next hne =>
    obtain rfl := Sum.inl.inj h
    exact ⟨rfl, hne⟩

theorem markPass_inr {weak' : List (Fin n)} (h : t.markPass order weak = .inr weak') :
    weak' = weak ∧ order.foldl t.markWeak weak = weak := by
  simp only [markPass] at h
  split at h
  · next heq =>
    obtain rfl := Sum.inr.inj h
    exact ⟨rfl, heq⟩
  · cases h

/-- Every pass but the last marks a statement that was not marked. -/
theorem terminates_markPass :
    Runs.Terminates (fun x y => t.markPass order x = .inl y) [] := by
  refine Runs.terminates_of_rank (I := List.Nodup) Nat.lt_wfRel.wf
    (fun weak : List (Fin n) => n - weak.length) (fun {a b} ha hab => ?_) List.nodup_nil
  obtain ⟨rfl, hne⟩ := markPass_inl hab
  obtain ⟨hnodup, hlength⟩ := t.markWeak_grows a order ha
  have hcard := hnodup.length_le_card
  rw [Fintype.card_fin] at hcard
  have hlt := hlength.resolve_left hne
  exact ⟨hnodup, show n - _ < n - _ by omega⟩

/-- **The marking ends**, in whatever order all the statements are listed, **with the
statements that are non-constraining and have only such proper ancestors or only such
descendants.** -/
theorem mem_of_markLoop_iff (t : StatementTree n) {order : List (Fin n)}
    (horder : ∀ i, i ∈ order) :
    ∃ fuel weak, t.markLoop order fuel = some weak ∧ ∀ i, i ∈ weak ↔
      t.NonConstraining i ∧ ((∀ a, t.forest.Above a i → t.NonConstraining a) ∨
        ∀ d, t.forest.Above i d → t.NonConstraining d) := by
  have hends : Runs.Terminates (fun x y => t.markPass order x = .inl y) [] := terminates_markPass
  obtain ⟨fuel, weak, hloop⟩ := Runs.exists_loop_eq_some hends
  refine ⟨fuel, weak, hloop, fun i => ?_⟩
  obtain ⟨weak', hrun, hstop⟩ := Runs.exists_run_of_loop hloop
  obtain ⟨rfl, hfixed⟩ := markPass_inr hstop
  have hmarked : ∀ j ∈ weak, t.forest.Marked t.NonConstraining j := by
    refine Runs.invariant_of_run (I := fun marks : List (Fin n) =>
      ∀ j ∈ marks, t.forest.Marked t.NonConstraining j) (fun {a b} ha hab => ?_) hrun
      (by rintro j ⟨⟩)
    obtain ⟨rfl, -⟩ := markPass_inl hab
    exact marked_of_mem_foldl ha
  rw [← Forest.marked_iff]
  exact ⟨hmarked i, mem_of_marked horder hfixed⟩

/-- A constraining statement between two unit statements. -/
def unitsAround : StatementTree 3 :=
  .ofChecked (fun i => ⟨[⟨i, ⟨0, 0⟩, if i = 1 then .name (.and []) none else .unit⟩], ⟨0, 0⟩⟩)
    (fun i => if i = 0 then none else some (i - 1)) ⟨true, false⟩ (by decide)

/-- The root is marked for its lack of a parent, the leaf for its lack of children. -/
theorem mem_of_markLoop_iff_unitsAround :
    ∃ fuel weak, unitsAround.markLoop [2, 0, 1] fuel = some weak ∧ ∀ i, i ∈ weak ↔
      unitsAround.NonConstraining i ∧
        ((∀ a, unitsAround.forest.Above a i → unitsAround.NonConstraining a) ∨
          ∀ d, unitsAround.forest.Above i d → unitsAround.NonConstraining d) :=
  mem_of_markLoop_iff unitsAround (by decide)

example : unitsAround.markLoop [2, 0, 1] 2 = some [0, 2] := by decide

/-- The passes of the executor, in visiting order, find the same statements. -/
theorem weak_iff (t : StatementTree n) (i : Fin n) : t.weak i = true ↔
    t.NonConstraining i ∧ ((∀ a, t.forest.Above a i → t.NonConstraining a) ∨
      ∀ d, t.forest.Above i d → t.NonConstraining d) := by
  have hsound : ∀ (k : ℕ) (weak : List (Fin n)),
      (∀ j ∈ weak, t.forest.Marked t.NonConstraining j) →
        ∀ j ∈ t.weakLoop k weak, t.forest.Marked t.NonConstraining j := by
    intro k
    induction k with
    | zero => exact fun _ h => h
    | succ k ih =>
      intro weak h
      rw [weakLoop]
      split
      · exact h
      · exact ih _ (marked_of_mem_foldl h)
  rw [← Forest.marked_iff, weak, List.contains_iff_mem]
  exact ⟨hsound (n + 1) [] (by rintro j ⟨⟩) i,
    mem_of_marked (List.mem_finRange (n := n)) t.markWeakStatements_fixed⟩

end StatementTree

end Askl
