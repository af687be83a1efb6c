import Askl.Index.Partition

/-!
# Selections and the index queries that build them

A selection holds the nodes a statement has selected, and the reference and
containment edges recorded when it was loaded.  Edges are never reloaded: every
later constraint reads the recorded lists.

## Main definitions

* `Selection`, `SelectionNode` — nodes and recorded edges.
* `ScopeContext` — how the edge queries of a load are scoped.
* `findSymbol` — load the nodes a filter tree selects, with their edges.
* `findChildInstanceIds`, `findParentInstanceIds` — one step along an edge.

## Main results

* `findSymbol_nodes` — the nodes of a load are joined rows that pass its filter.
-/

namespace Askl

/-! ### Selections -/

/-- A selected node: a row of the current query. -/
abbrev SelectionNode := CurrentRow

/-- A recorded reference to a selected symbol. -/
structure ParentReference where
  toSymbol : Symbol
  toInstance : SymbolInstance
  fromInstance : SymbolInstance
  symbolRef : SymbolRef
  deriving DecidableEq

/-- A recorded reference from a selected instance. -/
structure ChildReference where
  parentSymbol : Symbol
  symbol : Symbol
  symbolInstance : SymbolInstance
  fromInstance : SymbolInstance
  symbolRef : SymbolRef
  fromObject : Object
  deriving DecidableEq

/-- A recorded container of a selected instance. -/
structure HasParentReference where
  childSymbol : Symbol
  childInstance : SymbolInstance
  parentSymbol : Symbol
  parentInstance : SymbolInstance
  deriving DecidableEq

/-- A recorded instance contained in a selected one. -/
structure HasChildReference where
  parentSymbol : Symbol
  parentInstance : SymbolInstance
  childSymbol : Symbol
  childInstance : SymbolInstance
  parentObject : Object
  deriving DecidableEq

/-- The nodes of a statement and the edges recorded with them. -/
structure Selection where
  nodes : List SelectionNode
  parents : List ParentReference
  children : List ChildReference
  hasParents : List HasParentReference
  hasChildren : List HasChildReference
  deriving DecidableEq

namespace Selection

/-- The empty selection. -/
def new : Selection := ⟨[], [], [], [], []⟩

/-- Append another selection, list by list. -/
def extend (s t : Selection) : Selection where
  nodes := s.nodes ++ t.nodes
  parents := s.parents ++ t.parents
  children := s.children ++ t.children
  hasParents := s.hasParents ++ t.hasParents
  hasChildren := s.hasChildren ++ t.hasChildren

@[simp] theorem nodes_new : new.nodes = [] := rfl

@[simp] theorem nodes_extend (s t : Selection) :
    (s.extend t).nodes = s.nodes ++ t.nodes := rfl

@[simp] theorem parents_extend (s t : Selection) :
    (s.extend t).parents = s.parents ++ t.parents := rfl

@[simp] theorem children_extend (s t : Selection) :
    (s.extend t).children = s.children ++ t.children := rfl

@[simp] theorem hasParents_extend (s t : Selection) :
    (s.extend t).hasParents = s.hasParents ++ t.hasParents := rfl

@[simp] theorem hasChildren_extend (s t : Selection) :
    (s.extend t).hasChildren = s.hasChildren ++ t.hasChildren := rfl

/-- The instance ids of the nodes. -/
def getInstanceIds (s : Selection) : List ℤ := s.nodes.map (·.symbolInstance.id)

/-- Whether some row of the selection lies outside the visible layers. -/
def hasEphLeak (s : Selection) (eph : EphContext) : Bool :=
  let leak := fun layer : ℤ => !(eph.visibleIds.contains layer)
  s.nodes.any (fun n => leak n.symbol.layer || leak n.symbolInstance.layer ||
      leak n.object.layer) ||
    s.parents.any (fun p => leak p.toSymbol.layer || leak p.toInstance.layer ||
      leak p.fromInstance.layer || leak p.symbolRef.layer) ||
    s.children.any (fun c => leak c.parentSymbol.layer || leak c.symbol.layer ||
      leak c.symbolInstance.layer || leak c.fromInstance.layer || leak c.symbolRef.layer ||
      leak c.fromObject.layer) ||
    s.hasParents.any (fun h => leak h.childSymbol.layer || leak h.childInstance.layer ||
      leak h.parentSymbol.layer || leak h.parentInstance.layer) ||
    s.hasChildren.any (fun h => leak h.parentSymbol.layer || leak h.parentInstance.layer ||
      leak h.childSymbol.layer || leak h.childInstance.layer || leak h.parentObject.layer)

end Selection

/-! ### Loading -/

/-- What an index query can fail with: a row outside the visible layers. -/
inductive IndexError where
  | isolationViolation
  deriving DecidableEq, Repr

/-- How the edge queries of a load are scoped. -/
inductive ScopeContext where
  | scope (ids : List ℤ) (filter : Option CompositeFilter)
  | skip
  | unscoped

/-- The side of a reference the instances of a scope must be on. -/
inductive ScopeRole where
  | children (parentIds : List ℤ)
  | parents (childIds : List ℤ)

/-- Sort and drop repeated ids. -/
def canonicalIds (ids : List ℤ) : List ℤ := (ids.insertionSort (· ≤ ·)).dedup

@[simp] theorem mem_canonicalIds {ids : List ℤ} {i : ℤ} : i ∈ canonicalIds ids ↔ i ∈ ids := by
  simp [canonicalIds]

/-- Two lists have the same canonical form when they have the same ids. -/
theorem canonicalIds_eq_iff {xs ys : List ℤ} :
    canonicalIds xs = canonicalIds ys ↔ ∀ a, a ∈ xs ↔ a ∈ ys := by
  constructor
  · intro h a
    rw [← mem_canonicalIds, h, mem_canonicalIds]
  · intro h
    have hsorted : ∀ zs : List ℤ, (canonicalIds zs).Pairwise (· ≤ ·) := fun zs =>
      (List.pairwise_insertionSort (· ≤ ·) zs).sublist (List.dedup_sublist _)
    have hperm : (canonicalIds xs).Perm (canonicalIds ys) := by
      have hnd : ∀ zs : List ℤ, (canonicalIds zs).Nodup := fun zs => List.nodup_dedup _
      rw [List.perm_ext_iff_of_nodup (hnd xs) (hnd ys)]
      intro a
      rw [mem_canonicalIds, mem_canonicalIds]
      exact h a
    exact hperm.eq_of_pairwise (fun _ _ _ _ => le_antisymm) (hsorted xs) (hsorted ys)

variable (db : Database)

/-- Visible references between an instance `si` of the target and an enclosing
instance `pd`, as the scope subqueries join them. -/
def scopeRefs (vis : VisibilitySpec) : List (SymbolInstance × SymbolInstance) :=
  db.symbolRefs.flatMap fun sr =>
    if vis.admits sr.layer then
      Keyed.join
        (db.symbolInstances.filter fun si => si.symbol == sr.toSymbol && vis.admits si.layer)
        (db.symbolInstances.filter fun pd => pd.objectId == sr.fromObject &&
          pd.offsetRange.contains sr.fromOffsetRange && vis.admits pd.layer)
        fun _ _ => true
    else []

/-- The subquery conjunct of a scope role; an empty id list adds none. -/
def ScopeRole.admits (vis : VisibilitySpec) (role : ScopeRole) (id : ℤ) : Bool :=
  match role with
  | .children parentIds => parentIds.isEmpty ||
      (scopeRefs db vis).any fun p => parentIds.contains p.2.id && p.1.id == id
  | .parents childIds => childIds.isEmpty ||
      (scopeRefs db vis).any fun p => childIds.contains p.1.id && p.2.id == id

/-- `resolve_filter_to_ids`. -/
def resolveFilterToIds (f : CompositeFilter) (role : ScopeRole) (eph : EphContext) : List ℤ :=
  let vis := VisibilitySpec.combined eph.visibleIds
  canonicalIds ((((buildCurrentQuery db vis).filterOpt (f.composeCurrent db)).filter
    fun r => role.admits db vis r.symbolInstance.id).rows.map (·.symbolInstance.id))

/-- `resolve_scope_ids`. -/
def resolveScopeIds (ids : List ℤ) (f : Option CompositeFilter) (role : ScopeRole)
    (eph : EphContext) : List ℤ := match f with
  | none => ids
  | some f => canonicalIds (ids ++ resolveFilterToIds db f role eph)

/-- The ids an edge query is scoped to, `none` for no restriction; the outer `none`
skips the query. -/
def ScopeContext.resolve (scope : ScopeContext) (role : ScopeRole) (eph : EphContext) :
    Option (Option (List ℤ)) := match scope with
  | .skip => none
  | .unscoped => some none
  | .scope ids f => some (some (resolveScopeIds db ids f role eph))

/-- `sort_by_key` on a pair of ids. -/
def sortByKey {α : Type*} (key : α → ℤ × ℤ) (l : List α) : List α :=
  l.insertionSort fun a b =>
    (key a).1 < (key b).1 ∨ (key a).1 = (key b).1 ∧ (key a).2 ≤ (key b).2

/-- A parents row without the symbol of the parent. -/
def ParentsRow.toReference (r : ParentsRow) : ParentReference :=
  ⟨r.symbol, r.symbolInstance, r.parentDecl, r.symbolRef⟩

/-- A children row as a recorded reference. -/
def ChildrenRow.toReference (r : ChildrenRow) : ChildReference :=
  ⟨r.parentSymbol, r.symbol, r.symbolInstance, r.parentDecl, r.symbolRef, r.object⟩

/-- A has-parents row as a recorded container. -/
def HasParentsRow.toReference (r : HasParentsRow) : HasParentReference :=
  ⟨r.symbol, r.symbolInstance, r.containerSymbol, r.containerInstance⟩

/-- A has-children row as a recorded contained instance. -/
def HasChildrenRow.toReference (r : HasChildrenRow) : HasChildReference :=
  ⟨r.symbol, r.symbolInstance, r.containedSymbol, r.containedInstance, r.object⟩

/-- The has-children rows of the given instances: the plain query when the filter tree
constrains it, the candidate-table form otherwise. -/
def selectHasChildren (f : CompositeFilter) (sourceIds : List ℤ) (eph : EphContext) :
    List HasChildrenRow :=
  cachedLoadPartitioned HasChildrenRow.key eph f.isChainDependent
    (if f.constrainsHasChildren then hasChildrenQuery db f sourceIds
      else cteHasChildrenQuery db sourceIds)

/-- The selection `find_symbol` collects, before its leak check. -/
def collectSelection (f : CompositeFilter) (parentScope childrenScope : ScopeContext)
    (eph : EphContext) : Selection :=
  let chainDependent := f.isChainDependent
  let current := cachedLoadPartitioned CurrentRow.key eph chainDependent (currentQuery db f)
  let ids := canonicalIds (current.map (·.symbolInstance.id))
  let parents := match parentScope.resolve db (.parents ids) eph with
    | none => []
    | some scopeIds => cachedLoadPartitioned ParentsRow.key eph chainDependent
        (parentsQuery db f ids scopeIds)
  let children := match childrenScope.resolve db (.children ids) eph with
    | none => []
    | some scopeIds => cachedLoadPartitioned ChildrenRow.key eph chainDependent
        (childrenQuery db f ids scopeIds)
  let hasParents := cachedLoadPartitioned HasParentsRow.key eph chainDependent
    (hasParentsQuery db f ids)
  { nodes := current
    parents := parents.map (·.toReference)
    children := sortByKey (fun c => (c.fromInstance.id, c.symbolInstance.id))
      (children.map (·.toReference))
    hasParents := hasParents.map (·.toReference)
    hasChildren := sortByKey (fun h => (h.parentInstance.id, h.childInstance.id))
      ((selectHasChildren db f ids eph).map (·.toReference)) }

/-- `find_symbol`: load a selection and check it for rows of invisible layers. -/
def findSymbol (f : CompositeFilter) (parentScope childrenScope : ScopeContext)
    (eph : EphContext) : Except IndexError Selection :=
  let selection := collectSelection db f parentScope childrenScope eph
  if selection.hasEphLeak eph then .error .isolationViolation else .ok selection

/-- Fail when some of the given layers is not visible. -/
def checkLayers (layers : List ℤ) (eph : EphContext) : Except IndexError Unit :=
  if layers.any fun l => !(eph.visibleIds.contains l) then .error .isolationViolation
  else .ok ()

/-- `find_child_instance_ids`: the instances contained in, or referenced from, the
given ones. -/
def findChildInstanceIds (parentIds : List ℤ) (includeRefs includeHas : Bool)
    (f : CompositeFilter) (eph : EphContext) : Except IndexError (List ℤ) := do
  let sourceIds := canonicalIds parentIds
  let has := if includeHas then selectHasChildren db f sourceIds eph else []
  checkLayers (has.flatMap fun r => [r.symbol.layer, r.symbolInstance.layer,
    r.containedSymbol.layer, r.containedInstance.layer]) eph
  let refs := if includeRefs then cachedLoadPartitioned ChildrenRow.key eph f.isChainDependent
    (childrenQuery db f sourceIds none) else []
  checkLayers (refs.flatMap fun r => [r.parentSymbol.layer, r.symbol.layer,
    r.symbolInstance.layer, r.parentDecl.layer, r.symbolRef.layer]) eph
  return canonicalIds (has.map (·.containedInstance.id) ++ refs.map (·.symbolInstance.id))

/-- `find_parent_instance_ids`: the instances that contain, or hold a reference to,
the given ones. -/
def findParentInstanceIds (childIds : List ℤ) (includeRefs includeHas : Bool)
    (f : CompositeFilter) (eph : EphContext) : Except IndexError (List ℤ) := do
  let sourceIds := canonicalIds childIds
  let refs := if includeRefs then cachedLoadPartitioned ParentsRow.key eph f.isChainDependent
    (parentsQuery db f sourceIds none) else []
  checkLayers (refs.flatMap fun r => [r.symbolRef.layer, r.symbol.layer,
    r.symbolInstance.layer, r.parentDecl.layer]) eph
  let has := if includeHas then cachedLoadPartitioned HasParentsRow.key eph f.isChainDependent
    (hasParentsQuery db f sourceIds) else []
  checkLayers (has.flatMap fun r => [r.symbol.layer, r.symbolInstance.layer,
    r.containerSymbol.layer, r.containerInstance.layer]) eph
  return canonicalIds (refs.map (·.parentDecl.id) ++ has.map (·.containerInstance.id))

/-- `get_eph_instance_ids_for_layers`. -/
def getEphInstanceIdsForLayers (layerIds : List ℤ) : List ℤ :=
  (db.symbolInstances.filter fun i => layerIds.contains i.layer).map (·.id)

/-! ### What a load holds -/

theorem checkLayers_ok {layers : List ℤ} {eph : EphContext}
    (h : ∀ l ∈ layers, l ∈ eph.visibleIds) : checkLayers layers eph = .ok () := by
  unfold checkLayers
  rw [if_neg]
  simpa using h

/-- A dedup keeps only rows it was given. -/
private theorem mem_of_mem_dedupByKey {R K : Type*} [DecidableEq K] {key : R → K} :
    ∀ {seen : List K} {l : List R} {r : R}, r ∈ Keyed.dedupByKey key seen l → r ∈ l := by
  intro seen l
  induction l generalizing seen with
  | nil => intro r h; exact h
  | cons a l ih =>
    intro r h
    rw [Keyed.dedupByKey] at h
    split at h
    · exact List.mem_cons_of_mem a (ih h)
    · rcases List.mem_cons.mp h with rfl | h
      · exact List.mem_cons_self
      · exact List.mem_cons_of_mem a (ih h)

/-- A loaded row is a row of some branch. -/
theorem mem_of_mem_load {R K : Type*} [DecidableEq K] {key : R → K} {eph : EphContext}
    {chainDependent : Bool} {build : VisibilitySpec → Query R} {r : R}
    (h : r ∈ cachedLoadPartitioned key eph chainDependent build) :
    ∃ vis, r ∈ (build vis).rows := by
  unfold cachedLoadPartitioned at h
  split at h
  · exact ⟨_, h⟩
  · split at h
    · exact ⟨_, h⟩
    · rcases List.mem_append.mp (mem_of_mem_dedupByKey h) with h | h
      · exact ⟨_, h⟩
      · exact ⟨_, h⟩

theorem findSymbol_eq {f : CompositeFilter} {parentScope childrenScope : ScopeContext}
    {eph : EphContext} {sel : Selection}
    (h : findSymbol db f parentScope childrenScope eph = .ok sel) :
    sel = collectSelection db f parentScope childrenScope eph := by
  simp only [findSymbol] at h
  split at h
  · cases h
  · exact (Except.ok.inj h).symm

/-- The nodes of a load are joined rows that pass its filter. -/
theorem findSymbol_nodes {f : CompositeFilter} {parentScope childrenScope : ScopeContext}
    {eph : EphContext} {sel : Selection}
    (h : findSymbol db f parentScope childrenScope eph = .ok sel) {n : SelectionNode}
    (hn : n ∈ sel.nodes) :
    n ∈ currentRows db ∧ Query.passes (f.composeCurrent db) n = true := by
  rw [findSymbol_eq db h] at hn
  obtain ⟨vis, hvis⟩ := mem_of_mem_load hn
  rw [(splits_currentQuery db f).rows vis, List.mem_filter, List.mem_filter] at hvis
  exact hvis.1

end Askl
