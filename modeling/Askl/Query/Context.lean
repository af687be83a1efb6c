import Askl.Index.Selection
import Askl.Query.Dependencies
import Mathlib.Data.List.AList

/-!
# The execution context

Selectors keep their selections in a registry, forced verbs and forced uses keep the
matches they were first given in a cell that is written once.  A statement's selection
is read off the registry through its selectors.

## Main definitions

* `ExecutionContext` — the registry, the write-once cells, the layers and the warnings.
* `constrainByParent`, `constrainByChild`, `constrainByOwner` — the three constraints on
  a selection.
* `getSelection`, `selectionNodeCount`, `isSelectionSome` — a statement's selection.
* `contributing` — the selectors a statement's selection is made of.

## Main results

* `getSelection_isSome_iff` — a statement has a selection when its last selector does.
* `gather_nodes` — its nodes are those of the contributing selectors.
-/

namespace Askl

/-! ### Constraining a selection -/

namespace Selection

/-- `constrain_by_parent`: keep the nodes a recorded reference or containment edge of
the parent leads to from one of the parent's nodes. -/
def supportedByParent (parent : Selection) (rel : RelationshipType) (s : SelectionNode) :
    Bool :=
  rel.refs && parent.children.any (fun r => r.symbol.id == s.symbol.id &&
      parent.nodes.any fun n => n.symbol.id == r.parentSymbol.id) ||
    rel.has && parent.hasChildren.any (fun r => r.childInstance.id == s.symbolInstance.id &&
      parent.nodes.any fun n => n.symbolInstance.id == r.parentInstance.id)

/-- `constrain_by_child`: keep the nodes a recorded reference or containment edge of the
child comes from, to one of the child's nodes. -/
def supportedByChild (child : Selection) (rel : RelationshipType) (s : SelectionNode) :
    Bool :=
  rel.refs && child.parents.any (fun r => r.fromInstance.symbol == s.symbol.id &&
      child.nodes.any fun n => n.symbol.id == r.toSymbol.id) ||
    rel.has && child.hasParents.any (fun r => r.parentInstance.id == s.symbolInstance.id &&
      child.nodes.any fun n => n.symbolInstance.id == r.childInstance.id)

/-- `constrain_by_owner`: keep the nodes whose instance the owner has selected. -/
def supportedByOwner (owner : Selection) (s : SelectionNode) : Bool :=
  owner.nodes.any fun o => o.symbolInstance.id == s.symbolInstance.id

/-- Keep the nodes that satisfy a predicate; the recorded edges stay. -/
def retain (s : Selection) (p : SelectionNode → Bool) : Selection :=
  { s with nodes := s.nodes.filter p }

@[simp] theorem nodes_retain (s : Selection) (p : SelectionNode → Bool) :
    (s.retain p).nodes = s.nodes.filter p := rfl

@[simp] theorem parents_retain (s : Selection) (p : SelectionNode → Bool) :
    (s.retain p).parents = s.parents := rfl

@[simp] theorem children_retain (s : Selection) (p : SelectionNode → Bool) :
    (s.retain p).children = s.children := rfl

@[simp] theorem hasParents_retain (s : Selection) (p : SelectionNode → Bool) :
    (s.retain p).hasParents = s.hasParents := rfl

@[simp] theorem hasChildren_retain (s : Selection) (p : SelectionNode → Bool) :
    (s.retain p).hasChildren = s.hasChildren := rfl

end Selection

/-- The support a dependency gives under a role; an ordering role constrains nothing. -/
def supported (dependency : Selection) (role : DependencyRole) (rel : RelationshipType)
    (s : SelectionNode) : Bool :=
  match role with
  | .parent => dependency.supportedByChild rel s
  | .child => dependency.supportedByParent rel s
  | .user => dependency.supportedByOwner s
  | .preSeedSibling => true
  | .preSeedLabel _ => true

/-- `constrain_selection` on a selection that exists. -/
def constrainSelection (dependency : Selection) (role : DependencyRole)
    (rel : RelationshipType) (s : Selection) : Selection :=
  s.retain (supported dependency role rel)

/-- Whether `constrain_selection` removed a node. -/
def constrainChanged (dependency : Selection) (role : DependencyRole)
    (rel : RelationshipType) (s : Selection) : Bool :=
  s.nodes.length != (constrainSelection dependency role rel s).nodes.length

theorem nodes_constrainSelection_subset (dependency : Selection) (role : DependencyRole)
    (rel : RelationshipType) (s : Selection) :
    (constrainSelection dependency role rel s).nodes ⊆ s.nodes :=
  fun _ ha => (List.mem_filter.mp ha).1

/-- A constraint that changes a selection shortens it. -/
theorem length_constrainSelection_lt {dependency : Selection} {role : DependencyRole}
    {rel : RelationshipType} {s : Selection}
    (h : constrainChanged dependency role rel s = true) :
    (constrainSelection dependency role rel s).nodes.length < s.nodes.length := by
  have hle : (constrainSelection dependency role rel s).nodes.length ≤ s.nodes.length :=
    List.length_filter_le _ _
  have hne : s.nodes.length ≠ (constrainSelection dependency role rel s).nodes.length := by
    simpa [constrainChanged] using h
  omega

/-- A constraint that removes no node changes nothing. -/
theorem constrainSelection_eq_self {dependency : Selection} {role : DependencyRole}
    {rel : RelationshipType} {s : Selection}
    (h : constrainChanged dependency role rel s = false) :
    constrainSelection dependency role rel s = s := by
  have hlen : s.nodes.length = (s.nodes.filter (supported dependency role rel)).length := by
    simpa [constrainChanged, constrainSelection] using h
  have hfil := List.filter_sublist.eq_of_length hlen.symm
  simp [constrainSelection, Selection.retain, hfil]

/-! ### Diagnostics -/

/-- The kind of a diagnostic. -/
inductive DiagnosticKind where
  | noMatch
  | note
  deriving DecidableEq, Repr

/-- What the constraint of an emptying note came from. -/
inductive ConstraintContext where
  | children
  | statement (span : Span)
  deriving DecidableEq, Repr

/-- The messages of the executor. -/
inductive DiagnosticMessage where
  | matchedNoSymbols
  | emptiedByConstraints (context : ConstraintContext)
  | selectRequiresName
  | producedNoLayers
  | truncated
  deriving DecidableEq, Repr

/-- A warning attached to a statement. -/
structure Diagnostic where
  span : Span
  kind : DiagnosticKind
  message : DiagnosticMessage
  token : Option Text
  deriving DecidableEq, Repr

namespace Diagnostic

/-- An advisory note. -/
def note (span : Span) (message : DiagnosticMessage) : Diagnostic := ⟨span, .note, message, none⟩

/-- A selector that matched nothing, with the name to suggest against. -/
def noMatch (span : Span) (token : Option Text) : Diagnostic :=
  ⟨span, .noMatch, .matchedNoSymbols, token⟩

end Diagnostic

/-! ### The context -/

/-- The selector registry: an entry holds a selection once the selector has one. -/
abbrev Registry := AList fun _ : SelectorId => Option Selection

/-- A layer a statement materialised for one root. -/
structure LayerActivation where
  rootId : ℤ
  layerId : ℤ
  truncated : Bool
  deriving DecidableEq, Repr

/-- The state of an execution.  Warnings and layer activations are kept by the statement
they come from. -/
structure ExecutionContext (n : ℕ) where
  registry : Registry
  /-- The matches a forced verb, or the provider a forced use, was first given. -/
  cached : AList fun _ : SelectorId => Selection
  eph : EphContext
  warnings : Fin n → List Diagnostic
  layerActivations : Fin n → List LayerActivation

namespace ExecutionContext

variable {n : ℕ} (ctx : ExecutionContext n)

/-- The selection of a selector; a selector without an entry has none. -/
def selection (id : SelectorId) : Option Selection := (ctx.registry.lookup id).join

/-- The content of a selector's write-once cell. -/
def cell (id : SelectorId) : Option Selection := ctx.cached.lookup id

/-- Set a selector's selection. -/
def setSelection (id : SelectorId) (s : Option Selection) : ExecutionContext n :=
  { ctx with registry := ctx.registry.insert id s }

/-- `OnceLock::set`: only the first write counts. -/
def setCell (id : SelectorId) (s : Selection) : ExecutionContext n :=
  match ctx.cell id with
  | some _ => ctx
  | none => { ctx with cached := ctx.cached.insert id s }

/-- Append warnings to a statement. -/
def warn (i : Fin n) (ws : List Diagnostic) : ExecutionContext n :=
  { ctx with warnings := Function.update ctx.warnings i (ctx.warnings i ++ ws) }

@[simp] theorem selection_setSelection (id id' : SelectorId) (s : Option Selection) :
    (ctx.setSelection id s).selection id' = if id' = id then s else ctx.selection id' := by
  unfold selection setSelection
  by_cases h : id' = id
  · subst h
    simp
  · simp [h, AList.lookup_insert_ne h]

theorem selection_setSelection_self (id : SelectorId) (s : Option Selection) :
    (ctx.setSelection id s).selection id = s := by
  simp

@[simp] theorem cell_setSelection (id id' : SelectorId) (s : Option Selection) :
    (ctx.setSelection id s).cell id' = ctx.cell id' := rfl

@[simp] theorem eph_setSelection (id : SelectorId) (s : Option Selection) :
    (ctx.setSelection id s).eph = ctx.eph := rfl

@[simp] theorem selection_warn (i : Fin n) (ws : List Diagnostic) (id : SelectorId) :
    (ctx.warn i ws).selection id = ctx.selection id := rfl

@[simp] theorem cell_warn (i : Fin n) (ws : List Diagnostic) (id : SelectorId) :
    (ctx.warn i ws).cell id = ctx.cell id := rfl

@[simp] theorem eph_warn (i : Fin n) (ws : List Diagnostic) : (ctx.warn i ws).eph = ctx.eph :=
  rfl

@[simp] theorem warn_nil (i : Fin n) : ctx.warn i [] = ctx := by
  simp [warn]

@[simp] theorem selection_setCell (id id' : SelectorId) (s : Selection) :
    (ctx.setCell id s).selection id' = ctx.selection id' := by
  unfold setCell
  split <;> rfl

@[simp] theorem eph_setCell (id : SelectorId) (s : Selection) :
    (ctx.setCell id s).eph = ctx.eph := by
  unfold setCell
  split <;> rfl

theorem cell_setCell (id id' : SelectorId) (s : Selection) :
    (ctx.setCell id s).cell id' =
      if id' = id then some ((ctx.cell id).getD s) else ctx.cell id' := by
  unfold setCell
  by_cases h : id' = id
  · subst h
    cases hc : ctx.cell id' with
    | some s' => simp [hc]
    | none => simp [cell]
  · cases hc : ctx.cell id with
    | some s' => simp [h]
    | none => simp [cell, h, AList.lookup_insert_ne h]

end ExecutionContext

/-! ### A statement's selection -/

/-- One selector of the fold: a selection is appended, and a selector without one drops
what was gathered before it. -/
def gatherStep (sel : SelectorId → Option Selection) (acc : Option Selection) (v : Verb) :
    Option Selection :=
  match sel v.id with
  | none => none
  | some s => match acc with
    | none => some s
    | some a => some (a.extend s)

/-- `get_selection`, over the selectors of a statement. -/
def gather (sel : SelectorId → Option Selection) (vs : List Verb) : Option Selection :=
  vs.foldl (gatherStep sel) none

/-- The selectors after the last one without a selection. -/
def contributing (sel : SelectorId → Option Selection) (vs : List Verb) : List Verb :=
  vs.foldl (fun acc v => if (sel v.id).isSome then acc ++ [v] else []) []

/-- The nodes of a list of selectors. -/
def nodesOf (sel : SelectorId → Option Selection) (vs : List Verb) : List SelectionNode :=
  vs.flatMap fun v => ((sel v.id).map (·.nodes)).getD []

section Gather

variable {sel : SelectorId → Option Selection}

theorem gather_concat (vs : List Verb) (v : Verb) :
    gather sel (vs ++ [v]) = gatherStep sel (gather sel vs) v := by
  simp [gather]

theorem contributing_concat (vs : List Verb) (v : Verb) :
    contributing sel (vs ++ [v]) =
      if (sel v.id).isSome then contributing sel vs ++ [v] else [] := by
  simp [contributing]

theorem contributing_subset (vs : List Verb) : contributing sel vs ⊆ vs := by
  induction vs using List.reverseRecOn with
  | nil => simp [contributing]
  | append_singleton vs v ih =>
    rw [contributing_concat]
    split
    · exact List.append_subset.mpr ⟨List.Subset.trans ih (List.subset_append_left _ _), by simp⟩
    · simp

theorem isSome_of_mem_contributing {vs : List Verb} {v : Verb}
    (h : v ∈ contributing sel vs) : (sel v.id).isSome = true := by
  induction vs using List.reverseRecOn with
  | nil => simp [contributing] at h
  | append_singleton vs w ih =>
    rw [contributing_concat] at h
    split at h
    · next hw =>
      rcases List.mem_append.mp h with h | h
      · exact ih h
      · rw [List.mem_singleton.mp h]
        exact hw
    · simp at h

/-- When every selector has a selection, all contribute. -/
theorem contributing_eq_self {vs : List Verb} (h : ∀ v ∈ vs, (sel v.id).isSome = true) :
    contributing sel vs = vs := by
  induction vs using List.reverseRecOn with
  | nil => rfl
  | append_singleton vs v ih =>
    rw [contributing_concat, if_pos (h v (by simp)), ih fun w hw => h w (by simp [hw])]

/-- Which selectors contribute depends only on which of them have a selection. -/
theorem contributing_congr {sel' : SelectorId → Option Selection} {vs : List Verb}
    (h : ∀ v ∈ vs, (sel v.id).isSome = (sel' v.id).isSome) :
    contributing sel vs = contributing sel' vs := by
  induction vs using List.reverseRecOn with
  | nil => rfl
  | append_singleton vs v ih =>
    rw [contributing_concat, contributing_concat, ih fun w hw => h w (by simp [hw]),
      h v (by simp)]

theorem gather_congr {sel' : SelectorId → Option Selection} {vs : List Verb}
    (h : ∀ v ∈ vs, sel v.id = sel' v.id) : gather sel vs = gather sel' vs := by
  induction vs using List.reverseRecOn with
  | nil => rfl
  | append_singleton vs v ih =>
    rw [gather_concat, gather_concat, ih fun w hw => h w (by simp [hw]), gatherStep,
      gatherStep, h v (by simp)]

/-- What holds of the selections of a statement's selectors, and is kept when one is appended
to another, holds of the statement's. -/
theorem gather_induction {P : Selection → Prop}
    (hextend : ∀ {s s'}, P s → P s' → P (s.extend s')) {vs : List Verb}
    (h : ∀ v ∈ vs, ∀ s, sel v.id = some s → P s) {s : Selection} (hs : gather sel vs = some s) :
    P s := by
  induction vs using List.reverseRecOn generalizing s with
  | nil => cases hs
  | append_singleton vs v ih =>
    rw [gather_concat, gatherStep] at hs
    cases hv : sel v.id with
    | none => simp [hv] at hs
    | some sv =>
      have hsv : P sv := h v (by simp) sv hv
      rw [hv] at hs
      cases hg : gather sel vs with
      | none =>
        rw [hg] at hs
        exact Option.some.inj hs ▸ hsv
      | some sg =>
        rw [hg] at hs
        exact Option.some.inj hs ▸ hextend (ih (fun w hw => h w (by simp [hw])) hg) hsv

/-- A statement has a selection exactly when its last selector does. -/
theorem gather_isSome_iff (vs : List Verb) : (gather sel vs).isSome = true ↔
    ∃ v, vs.getLast? = some v ∧ (sel v.id).isSome = true := by
  induction vs using List.reverseRecOn with
  | nil => simp [gather]
  | append_singleton vs v ih =>
    rw [gather_concat, gatherStep]
    simp only [List.getLast?_append, List.getLast?_singleton, Option.some_or,
      Option.some.injEq, exists_eq_left']
    cases sel v.id with
    | none => simp
    | some s => cases gather sel vs <;> simp

/-- Where a selector contributes there is a selection. -/
theorem gather_isSome_of_mem_contributing {vs : List Verb} {v : Verb}
    (h : v ∈ contributing sel vs) : (gather sel vs).isSome = true := by
  rcases List.eq_nil_or_concat' vs with rfl | ⟨ws, w, rfl⟩
  · simp [contributing] at h
  · rw [contributing_concat] at h
    split at h
    · next hw => exact (gather_isSome_iff _).mpr ⟨w, by simp, hw⟩
    · simp at h

/-- The nodes of a statement are those of its contributing selectors. -/
theorem gather_nodes {vs : List Verb} {s : Selection} (h : gather sel vs = some s) :
    s.nodes = nodesOf sel (contributing sel vs) := by
  induction vs using List.reverseRecOn generalizing s with
  | nil => simp [gather] at h
  | append_singleton vs v ih =>
    rw [gather_concat, gatherStep] at h
    rw [contributing_concat]
    cases hv : sel v.id with
    | none => simp [hv] at h
    | some sv =>
      rw [hv] at h
      cases hg : gather sel vs with
      | none =>
        rw [hg] at h
        obtain rfl := Option.some.inj h
        have hnil : contributing sel vs = [] := by
          rcases List.eq_nil_or_concat' vs with rfl | ⟨ws, w, rfl⟩
          · rfl
          · rw [contributing_concat]
            have hnone : ¬(gather sel (ws ++ [w])).isSome = true := by simp [hg]
            have := (gather_isSome_iff _).not.mp hnone
            simpa using this
        simp [hnil, nodesOf, hv]
      | some sg =>
        rw [hg] at h
        obtain rfl := Option.some.inj h
        simp [ih hg, nodesOf, hv]

end Gather

section Statement

variable {n : ℕ} (t : StatementTree n) (ctx : ExecutionContext n) (i : Fin n)

/-- `get_selection`. -/
def getSelection : Option Selection := gather ctx.selection (t.selectors i)

/-- `selection_node_count`, without building the selection. -/
def selectionNodeCount : Option ℕ :=
  (t.selectors i).foldl (fun total v => match ctx.selection v.id with
    | none => none
    | some s => some (total.getD 0 + s.nodes.length)) none

/-- `has_selection`. -/
def hasSelection : Bool := (selectionNodeCount t ctx i).isSome

/-- `propagation_priority`, with `none` for `usize::MAX`. -/
def propagationPriority : WithTop ℕ := selectionNodeCount t ctx i

/-- `is_computed`. -/
def isComputed : Bool := (t.selectors i).all fun v => (ctx.registry.lookup v.id).isSome

/-- `is_selection_some`: any selector has a selection. -/
def isSelectionSome : Bool :=
  (t.selectors i).isEmpty || (t.selectors i).any fun v => (ctx.selection v.id).isSome

theorem hasSelection_iff : hasSelection t ctx i = true ↔ (getSelection t ctx i).isSome = true := by
  unfold hasSelection selectionNodeCount getSelection gather
  suffices h : ∀ (vs : List Verb) (a : Option ℕ) (b : Option Selection),
      a.isSome = b.isSome →
      ((vs.foldl (fun total v => match ctx.selection v.id with
        | none => none
        | some s => some (total.getD 0 + s.nodes.length)) a).isSome =
      (vs.foldl (gatherStep ctx.selection) b).isSome) by
    rw [h _ none none rfl]
  intro vs
  induction vs with
  | nil => intro a b h; exact h
  | cons v vs ih =>
    intro a b h
    rw [List.foldl_cons, List.foldl_cons]
    refine ih _ _ ?_
    rw [gatherStep]
    cases ctx.selection v.id with
    | none => rfl
    | some s => cases b <;> rfl

/-- The last selector of a statement. -/
theorem getSelection_isSome_iff : (getSelection t ctx i).isSome = true ↔
    ∃ v, (t.selectors i).getLast? = some v ∧ (ctx.selection v.id).isSome = true :=
  gather_isSome_iff _

end Statement

end Askl
