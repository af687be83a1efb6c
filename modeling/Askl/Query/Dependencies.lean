import Askl.Query.Tree

/-!
# The dependency graph

Who is notified when a statement's selection changes: its parent, its children, the
statements that use one of its labels, and, for ordering only, the statements whose
layer must come after it.

## Main definitions

* `DependencyRole`, `StatementDependent` — an edge to a dependent statement.
* `StatementTree.dependents` — the edges out of a statement, in the order the source
  installs them.
* `buildDependencyGraph` — the edges, or the error the build stops with.

## Main results

* `mem_dependents_parent`, `mem_dependents_child`, `mem_dependents_user` — what the
  edges of each role join.
* `buildDependencyGraph_ok` — a build that succeeds found every label, and no statement
  uses a label of its own.
-/

namespace Askl

/-- The role of a dependency. -/
inductive DependencyRole where
  | parent
  | child
  | user
  | preSeedSibling
  | preSeedLabel (label : Text)
  deriving DecidableEq, Repr

/-- Whether the edge only orders the computation of initial selections. -/
def DependencyRole.isPreSeed : DependencyRole → Bool
  | preSeedSibling => true
  | preSeedLabel _ => true
  | _ => false

/-- A statement to notify. -/
structure StatementDependent (n : ℕ) where
  statement : Fin n
  role : DependencyRole
  label : Option Text
  deriving DecidableEq

/-- What the build of the graph can stop with: a label nobody carries, or the panic of a
statement that reaches its own execution state through a label. -/
inductive GraphError (n : ℕ) where
  | labelNotFound (label : Text)
  | selfReference (statement : Fin n)
  deriving DecidableEq

namespace StatementTree

variable {n : ℕ} (t : StatementTree n)

/-- The labels the use verbs of a statement look up, in source order. -/
def useLabels (i : Fin n) : List Text := (t.selectors i).filterMap (·.kind.useLabel)

/-- The edges a statement installs on itself when it is visited: to its parent and to
its children. -/
def ownEdges (i : Fin n) : List (StatementDependent n) :=
  (t.parent i).toList.map (fun p => ⟨p, .parent, none⟩) ++
    (t.children i).map fun c => ⟨c, .child, none⟩

/-- The user edges statement `j` installs on a statement `i` that carries a label it
uses. -/
def userEdges (j i : Fin n) : List (StatementDependent n) :=
  (t.useLabels j).flatMap fun l =>
    ((t.labeledStatements l).filter (· = i)).map fun _ => ⟨j, .user, some l⟩

/-- The ordering edges statement `j` installs on a statement `i` whose label its layer
refers to, one for each label. -/
def preSeedLabelEdges (j i : Fin n) : List (StatementDependent n) :=
  ((t.command j).layerLabelRefs.eraseDups.filter
    fun l => (t.labeledStatements l).contains i).map fun l => ⟨j, .preSeedLabel l, none⟩

/-- The top-level statements, in source order. -/
def topLevel : List (Fin n) := (List.finRange n).filter fun i => t.parent i == none

/-- The most recent layer creator before each statement of a list, given the one before
the list. -/
def siblingEdges : Option (Fin n) → List (Fin n) → List (Fin n × Fin n)
  | _, [] => []
  | last, j :: js =>
    let rest := siblingEdges (if (t.command j).hasLayerSpec then some j else last) js
    match last with
    | none => rest
    | some i => (i, j) :: rest

/-- The edges out of a statement. -/
def dependents (i : Fin n) : List (StatementDependent n) :=
  (List.finRange n).flatMap (fun j =>
    (if j = i then t.ownEdges i else []) ++ t.userEdges j i ++ t.preSeedLabelEdges j i) ++
    ((t.siblingEdges none t.topLevel).filter (·.1 = i)).map fun p => ⟨p.2, .preSeedSibling, none⟩

/-- The check one visit makes: every label used is carried, by other statements only. -/
def checkLabel (j : Fin n) (l : Text) : Except (GraphError n) Unit :=
  if t.labeledStatements l = [] then .error (.labelNotFound l)
  else if j ∈ t.labeledStatements l then .error (.selfReference j)
  else .ok ()

/-- The checks of one visit, over the labels the statement uses. -/
def checkLabels (j : Fin n) : List Text → Except (GraphError n) Unit
  | [] => .ok ()
  | l :: ls => match t.checkLabel j l with
    | .error e => .error e
    | .ok () => checkLabels j ls

/-- The checks of every visit. -/
def checkStatements : List (Fin n) → Except (GraphError n) Unit
  | [] => .ok ()
  | j :: js => match t.checkLabels j (t.useLabels j ++ (t.command j).layerLabelRefs) with
    | .error e => .error e
    | .ok () => checkStatements js

/-- `build_dependency_graph`. -/
def buildDependencyGraph : Except (GraphError n) (Fin n → List (StatementDependent n)) :=
  match t.checkStatements (List.finRange n) with
  | .error e => .error e
  | .ok () => .ok t.dependents

/-! ### What the edges join -/

theorem mem_dependents {i : Fin n} {d : StatementDependent n} :
    d ∈ t.dependents i ↔ d ∈ t.ownEdges i ∨ (∃ j, d ∈ t.userEdges j i) ∨
      (∃ j, d ∈ t.preSeedLabelEdges j i) ∨
      ∃ p ∈ t.siblingEdges none t.topLevel, p.1 = i ∧ d = ⟨p.2, .preSeedSibling, none⟩ := by
  simp only [dependents, List.mem_append, List.mem_flatMap, List.mem_finRange, true_and,
    List.mem_map, List.mem_filter, decide_eq_true_eq]
  constructor
  · rintro (⟨j, (h | h) | h⟩ | ⟨p, ⟨hp, hpi⟩, rfl⟩)
    · split at h
      · exact Or.inl h
      · exact absurd h (by simp)
    · exact Or.inr (Or.inl ⟨j, h⟩)
    · exact Or.inr (Or.inr (Or.inl ⟨j, h⟩))
    · exact Or.inr (Or.inr (Or.inr ⟨p, hp, hpi, rfl⟩))
  · rintro (h | ⟨j, h⟩ | ⟨j, h⟩ | ⟨p, hp, hpi, rfl⟩)
    · exact Or.inl ⟨i, Or.inl (Or.inl (by simpa using h))⟩
    · exact Or.inl ⟨j, Or.inl (Or.inr h)⟩
    · exact Or.inl ⟨j, Or.inr h⟩
    · exact Or.inr ⟨p, ⟨hp, hpi⟩, rfl⟩

theorem mem_ownEdges {i : Fin n} {d : StatementDependent n} :
    d ∈ t.ownEdges i ↔ (∃ p, t.parent i = some p ∧ d = ⟨p, .parent, none⟩) ∨
      ∃ c ∈ t.children i, d = ⟨c, .child, none⟩ := by
  simp only [ownEdges, List.mem_append, List.mem_map, Option.mem_toList]
  constructor
  · rintro (⟨p, hp, rfl⟩ | ⟨c, hc, rfl⟩)
    · exact Or.inl ⟨p, hp, rfl⟩
    · exact Or.inr ⟨c, hc, rfl⟩
  · rintro (⟨p, hp, rfl⟩ | ⟨c, hc, rfl⟩)
    · exact Or.inl ⟨p, hp, rfl⟩
    · exact Or.inr ⟨c, hc, rfl⟩

theorem mem_userEdges {i j : Fin n} {d : StatementDependent n} :
    d ∈ t.userEdges j i ↔ ∃ l ∈ t.useLabels j, l ∈ (t.command i).labels ∧
      d = ⟨j, .user, some l⟩ := by
  simp only [userEdges, List.mem_flatMap, List.mem_map, List.mem_filter, decide_eq_true_eq]
  constructor
  · rintro ⟨l, hl, k, ⟨hk, rfl⟩, rfl⟩
    exact ⟨l, hl, (t.mem_labeledStatements).mp hk, rfl⟩
  · rintro ⟨l, hl, hi, rfl⟩
    exact ⟨l, hl, i, ⟨(t.mem_labeledStatements).mpr hi, rfl⟩, rfl⟩

private theorem role_of_mem_preSeedLabelEdges {i j : Fin n} {d : StatementDependent n}
    (h : d ∈ t.preSeedLabelEdges j i) : d.role.isPreSeed = true := by
  obtain ⟨l, -, rfl⟩ := List.mem_map.mp h
  rfl

/-- The edges that carry notifications. -/
theorem mem_dependents_notified {i : Fin n} {d : StatementDependent n}
    (hrole : d.role.isPreSeed = false) : d ∈ t.dependents i ↔
      (∃ p, t.parent i = some p ∧ d = ⟨p, .parent, none⟩) ∨
        (∃ c, t.parent c = some i ∧ d = ⟨c, .child, none⟩) ∨
        ∃ j, ∃ l ∈ t.useLabels j, l ∈ (t.command i).labels ∧ d = ⟨j, .user, some l⟩ := by
  rw [mem_dependents, mem_ownEdges]
  constructor
  · rintro ((hp | ⟨c, hc, rfl⟩) | ⟨j, h⟩ | ⟨j, h⟩ | ⟨p, -, -, rfl⟩)
    · exact Or.inl hp
    · exact Or.inr (Or.inl ⟨c, t.mem_children.mp hc, rfl⟩)
    · exact Or.inr (Or.inr ⟨j, t.mem_userEdges.mp h⟩)
    · rw [t.role_of_mem_preSeedLabelEdges h] at hrole
      cases hrole
    · cases hrole
  · rintro (hp | ⟨c, hc, rfl⟩ | ⟨j, h⟩)
    · exact Or.inl (Or.inl hp)
    · exact Or.inl (Or.inr ⟨c, t.mem_children.mpr hc, rfl⟩)
    · exact Or.inr (Or.inl ⟨j, t.mem_userEdges.mpr h⟩)

/-- A parent edge goes to the parent. -/
theorem mem_dependents_parent {i : Fin n} {d : StatementDependent n}
    (hrole : d.role = .parent) : d ∈ t.dependents i ↔
      t.parent i = some d.statement ∧ d.label = none := by
  obtain ⟨s, role, label⟩ := d
  cases hrole
  rw [mem_dependents_notified t rfl]
  constructor
  · rintro (⟨p, hp, h⟩ | ⟨c, -, h⟩ | ⟨j, l, -, -, h⟩)
    · cases h
      exact ⟨hp, rfl⟩
    · cases h
    · cases h
  · rintro ⟨hp, rfl⟩
    exact Or.inl ⟨s, hp, rfl⟩

/-- A child edge goes to a child. -/
theorem mem_dependents_child {i : Fin n} {d : StatementDependent n}
    (hrole : d.role = .child) : d ∈ t.dependents i ↔
      t.parent d.statement = some i ∧ d.label = none := by
  obtain ⟨s, role, label⟩ := d
  cases hrole
  rw [mem_dependents_notified t rfl]
  constructor
  · rintro (⟨p, -, h⟩ | ⟨c, hc, h⟩ | ⟨j, l, -, -, h⟩)
    · cases h
    · cases h
      exact ⟨hc, rfl⟩
    · cases h
  · rintro ⟨hc, rfl⟩
    exact Or.inr (Or.inl ⟨s, hc, rfl⟩)

/-- A user edge goes to a statement that uses a label the notifier carries. -/
theorem mem_dependents_user {i : Fin n} {d : StatementDependent n}
    (hrole : d.role = .user) : d ∈ t.dependents i ↔
      ∃ l ∈ t.useLabels d.statement, l ∈ (t.command i).labels ∧ d.label = some l := by
  obtain ⟨s, role, label⟩ := d
  cases hrole
  rw [mem_dependents_notified t rfl]
  constructor
  · rintro (⟨p, -, h⟩ | ⟨c, -, h⟩ | ⟨j, l, hl, hi, h⟩)
    · cases h
    · cases h
    · cases h
      exact ⟨l, hl, hi, rfl⟩
  · rintro ⟨l, hl, hi, rfl⟩
    exact Or.inr (Or.inr ⟨s, l, hl, hi, rfl⟩)

/-! ### A build that succeeds -/

private theorem checkLabels_ok {j : Fin n} {ls : List Text}
    (h : t.checkLabels j ls = .ok ()) :
    ∀ l ∈ ls, t.labeledStatements l ≠ [] ∧ j ∉ t.labeledStatements l := by
  induction ls with
  | nil => simp
  | cons l ls ih =>
    rw [checkLabels] at h
    unfold checkLabel at h
    intro l' hl'
    by_cases hnil : t.labeledStatements l = []
    · simp [hnil] at h
    · by_cases hmem : j ∈ t.labeledStatements l
      · simp [hnil, hmem] at h
      · rcases List.mem_cons.mp hl' with rfl | hl'
        · exact ⟨hnil, hmem⟩
        · exact ih (by simpa [hnil, hmem] using h) l' hl'

private theorem checkStatements_ok {js : List (Fin n)}
    (h : t.checkStatements js = .ok ()) : ∀ j ∈ js,
      t.checkLabels j (t.useLabels j ++ (t.command j).layerLabelRefs) = .ok () := by
  induction js with
  | nil => simp
  | cons j js ih =>
    rw [checkStatements] at h
    split at h
    · cases h
    · next hj =>
      intro k hk
      rcases List.mem_cons.mp hk with rfl | hk
      · exact hj
      · exact ih h k hk

/-- The build succeeds when the checks of every visit do. -/
theorem buildDependencyGraph_eq_ok (h : t.checkStatements (List.finRange n) = .ok ()) :
    t.buildDependencyGraph = .ok t.dependents := by
  rw [buildDependencyGraph, h]

/-- **A build that succeeds** returns the edges, and every label a statement uses is
carried, by other statements only. -/
theorem buildDependencyGraph_ok {deps : Fin n → List (StatementDependent n)}
    (h : t.buildDependencyGraph = .ok deps) : deps = t.dependents ∧
      ∀ j, ∀ l ∈ t.useLabels j, t.labeledStatements l ≠ [] ∧ j ∉ t.labeledStatements l := by
  unfold buildDependencyGraph at h
  split at h
  · cases h
  · next hck =>
    refine ⟨(Except.ok.inj h).symm, fun j l hl => ?_⟩
    exact t.checkLabels_ok (t.checkStatements_ok hck j (List.mem_finRange j)) l
      (List.mem_append_left _ hl)

/-- In a graph that was built, no edge that carries a selection leads back to its own
statement. -/
theorem statement_ne_of_mem_dependents {deps : Fin n → List (StatementDependent n)}
    (h : t.buildDependencyGraph = .ok deps) {i : Fin n} {d : StatementDependent n}
    (hd : d ∈ t.dependents i) (hrole : d.role.isPreSeed = false) : d.statement ≠ i := by
  rintro rfl
  cases hr : d.role with
  | parent => exact absurd (t.parent_lt ((t.mem_dependents_parent hr).mp hd).1) (lt_irrefl _)
  | child => exact absurd (t.parent_lt ((t.mem_dependents_child hr).mp hd).1) (lt_irrefl _)
  | user =>
    obtain ⟨l, hl, hlab, -⟩ := (t.mem_dependents_user hr).mp hd
    exact ((t.buildDependencyGraph_ok h).2 _ l hl).2 (t.mem_labeledStatements.mpr hlab)
  | preSeedSibling => simp [hr, DependencyRole.isPreSeed] at hrole
  | preSeedLabel l => simp [hr, DependencyRole.isPreSeed] at hrole

end StatementTree

end Askl
