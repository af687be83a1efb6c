import Askl.Index.EphContext

/-!
# Filter trees

A filter tree constrains up to five query contexts: the rows selected directly,
and the rows of the two reference and the two containment queries.  A leaf that
says nothing about a context composes to `none`, which means no constraint there.

## Main definitions

* `CurrentRow`, `ParentsRow`, `ChildrenRow`, `HasParentsRow`, `HasChildrenRow` — the
  joined rows of the five query contexts.
* `VisibilitySpec` — the branch of a partitioned load, and the layers it admits.
* `FilterLeaf`, `CompositeFilter` — leaves and trees.
* `CompositeFilter.compose` — the composition macro, over any leaf expression.
* `CompositeFilter.isChainDependent` — whether a subquery of the tree reads layers.

## Main results

* `CompositeFilter.compose_congr` — leaves that agree compose to trees that agree.
* `CompositeFilter.composeChildren_eq` and its like — a tree that is not chain
  dependent composes to the same expression in every branch.
-/

namespace Askl

/-! ### Joined rows -/

/-- A row of `symbols ⋈ symbol_instances ⋈ projects ⋈ objects`. -/
structure CurrentRow where
  symbol : Symbol
  symbolInstance : SymbolInstance
  object : Object
  project : Project
  deriving DecidableEq

/-- A row of `symbol_refs ⋈ symbols ⋈ symbol_instances ⋈ parent_decls ⋈
parent_symbols`. -/
structure ParentsRow where
  symbolRef : SymbolRef
  symbol : Symbol
  symbolInstance : SymbolInstance
  parentDecl : SymbolInstance
  parentSymbol : Symbol
  deriving DecidableEq

/-- A parents row joined with the object of the parent declaration. -/
structure ChildrenRow where
  symbolRef : SymbolRef
  symbol : Symbol
  symbolInstance : SymbolInstance
  parentDecl : SymbolInstance
  parentSymbol : Symbol
  object : Object
  deriving DecidableEq

/-- A row of `symbol_instances ⋈ symbols ⋈ symbol_types` and the same three tables
of a container. -/
structure HasParentsRow where
  symbolInstance : SymbolInstance
  symbol : Symbol
  symbolType : SymbolType
  containerInstance : SymbolInstance
  containerSymbol : Symbol
  containerType : SymbolType
  deriving DecidableEq

/-- A row of `symbol_instances ⋈ symbols ⋈ symbol_types ⋈ objects` and the first
three tables of a contained instance. -/
structure HasChildrenRow where
  symbolInstance : SymbolInstance
  symbol : Symbol
  symbolType : SymbolType
  object : Object
  containedInstance : SymbolInstance
  containedSymbol : Symbol
  containedType : SymbolType
  deriving DecidableEq

/-! ### Visibility branches -/

/-- The branch a visibility token belongs to, with the layers it admits. -/
inductive VisibilitySpec where
  | rootOnly (roots : List ℤ)
  | ephTouching (visible : List ℤ)
  | combined (visible : List ℤ)
  deriving DecidableEq, Repr

namespace VisibilitySpec

/-- The layers a visibility predicate binds. -/
def visible : VisibilitySpec → List ℤ
  | rootOnly ids => ids
  | ephTouching ids => ids
  | combined ids => ids

/-- `column = ANY($visible)`. -/
def admits (vis : VisibilitySpec) (layer : ℤ) : Bool := vis.visible.contains layer

@[simp] theorem admits_iff {vis : VisibilitySpec} {layer : ℤ} :
    vis.admits layer = true ↔ layer ∈ vis.visible := by
  simp [admits]

end VisibilitySpec

/-! ### Leaves -/

/-- The filter leaves, with the fields their constructors compile. -/
inductive FilterLeaf where
  | compoundName (lquery : Option (List LqueryItem)) (leafToken : Option Text)
  | leafName (leafName : Text)
  | globName (sqlPattern : Text) (caseSensitive : Bool)
  | fullNameGlob (sqlPattern : Text) (caseSensitive : Bool)
  | exactName (name : Text)
  | symbolInstanceId (instanceIds : List ℤ)
  | projectFilter (projectName : Text)
  | directOnly
  | innermostOnly
  | outerParent (parentIds : List ℤ)
  | symbolType (symbolTypeId : ℤ)
  | defaultSymbolType (symbolTypeIds : List ℤ)
  | packageDescendant (basePath : Ltree)
  deriving DecidableEq

namespace FilterLeaf

variable (db : Database)

/-- `LIKE` or `ILIKE`, by the smart case of the pattern. -/
def likeCase (caseSensitive : Bool) (pattern column : Text) : Bool :=
  if caseSensitive then like pattern column else ilike db.lower pattern column

/-- The predicate on directly selected rows. -/
def currentExpr : FilterLeaf → Option (CurrentRow → Bool)
  | compoundName none none => none
  | compoundName (some q) none => some fun r => lqueryMatches q r.symbol.symbolPath
  | compoundName none (some l) => some fun r => r.symbol.leafName == l
  | compoundName (some q) (some l) =>
    some fun r => r.symbol.leafName == l && lqueryMatches q r.symbol.symbolPath
  | leafName l => some fun r => r.symbol.leafName == l
  | globName p cs => some fun r => likeCase db cs p r.symbol.leafName
  | fullNameGlob p cs => some fun r => likeCase db cs p r.symbol.name
  | exactName n => some fun r => r.symbol.name == n
  | symbolInstanceId ids => some fun r => ids.contains r.symbolInstance.id
  | projectFilter n => some fun r => r.project.projectName == n
  | symbolType t => some fun r => r.symbol.symbolType == t
  | defaultSymbolType ts => some fun r => ts.contains r.symbol.symbolType
  | packageDescendant b =>
    some fun r => ltreeContains b r.symbol.symbolPath && !(r.symbol.symbolPath == b)
  | directOnly | innermostOnly | outerParent _ => none

/-- The predicate on parents rows: no leaf constrains them. -/
def parentsExpr : FilterLeaf → Option (ParentsRow → Bool) := fun _ => none

/-- The symbols with an id among the visible ones, joined with their types. -/
def typedSymbols (vis : VisibilitySpec) (id : ℤ) : List (Symbol × SymbolType) :=
  (db.symbols.filter fun s => s.id == id && vis.admits s.layer).flatMap fun s =>
    (db.symbolTypes.filter fun t => t.id == s.symbolType).map fun t => (s, t)

/-- The predicate on children rows: `DirectOnlyMixin` drops a reference that sits in a
smaller container inside the parent, `OuterParentFilterMixin` a parent nested in
another of the given parents. -/
def childrenExpr (vis : VisibilitySpec) : FilterLeaf → Option (ChildrenRow → Bool)
  | directOnly => some fun r => !(db.symbolInstances.any fun c =>
      c.objectId == r.parentDecl.objectId
        && r.parentDecl.offsetRange.contains c.offsetRange
        && c.offsetRange.contains r.symbolRef.fromOffsetRange
        && !(c.offsetRange == r.parentDecl.offsetRange)
        && !(c.id == r.parentDecl.id)
        && vis.admits c.layer
        && (typedSymbols db vis c.symbol).any fun ct =>
          db.symbolTypes.any fun pt =>
            pt.id == r.parentSymbol.symbolType && decide (ct.2.level ≤ pt.level))
  | outerParent ids => if ids.isEmpty then none else
      some fun r => !(db.symbolInstances.any fun op =>
        ids.contains op.id
          && !(op.id == r.parentDecl.id)
          && op.objectId == r.parentDecl.objectId
          && op.offsetRange.contains r.parentDecl.offsetRange
          && !(op.offsetRange == r.parentDecl.offsetRange)
          && vis.admits op.layer)
  | _ => none

/-- The predicate on has-parents rows: `InnermostOnlyMixin` drops a container with
another instance strictly between it and the contained one. -/
def hasParentsExpr (vis : VisibilitySpec) : FilterLeaf → Option (HasParentsRow → Bool)
  | innermostOnly => some fun r => !(db.symbolInstances.any fun mid =>
      mid.objectId == r.containerInstance.objectId
        && r.containerInstance.offsetRange.contains mid.offsetRange
        && mid.offsetRange.contains r.symbolInstance.offsetRange
        && !(mid.offsetRange == r.containerInstance.offsetRange)
        && !(mid.offsetRange == r.symbolInstance.offsetRange)
        && !(mid.id == r.containerInstance.id)
        && !(mid.id == r.symbolInstance.id)
        && vis.admits mid.layer
        && db.symbols.any fun s => s.id == mid.symbol && vis.admits s.layer)
  | _ => none

/-- The predicate on has-children rows: `DirectOnlyMixin` drops a contained instance
with another one strictly between, of a level the container may hold. -/
def hasChildrenExpr (vis : VisibilitySpec) : FilterLeaf → Option (HasChildrenRow → Bool)
  | directOnly => some fun r => !(db.symbolInstances.any fun mid =>
      mid.objectId == r.symbolInstance.objectId
        && r.symbolInstance.offsetRange.contains mid.offsetRange
        && mid.offsetRange.contains r.containedInstance.offsetRange
        && !(mid.offsetRange == r.symbolInstance.offsetRange)
        && !(mid.offsetRange == r.containedInstance.offsetRange)
        && !(mid.id == r.symbolInstance.id)
        && !(mid.id == r.containedInstance.id)
        && vis.admits mid.layer
        && (typedSymbols db vis mid.symbol).any fun mt =>
          decide (mt.2.level ≤ r.symbolType.level))
  | _ => none

/-- Whether `hasChildrenExpr` constrains. -/
def constrainsHasChildren : FilterLeaf → Bool
  | directOnly => true
  | _ => false

/-- Whether the leaf's predicate reads layers beyond the selected rows. -/
def isChainDependent : FilterLeaf → Bool
  | directOnly => true
  | innermostOnly => true
  | outerParent ids => !ids.isEmpty
  | _ => false

theorem childrenExpr_eq {l : FilterLeaf} (h : l.isChainDependent = false)
    (vis vis' : VisibilitySpec) : l.childrenExpr db vis = l.childrenExpr db vis' := by
  cases l with
  | directOnly => simp [isChainDependent] at h
  | outerParent ids => simp_all [isChainDependent, childrenExpr]
  | _ => rfl

theorem hasParentsExpr_eq {l : FilterLeaf} (h : l.isChainDependent = false)
    (vis vis' : VisibilitySpec) : l.hasParentsExpr db vis = l.hasParentsExpr db vis' := by
  cases l with
  | innermostOnly => simp [isChainDependent] at h
  | _ => rfl

theorem hasChildrenExpr_eq {l : FilterLeaf} (h : l.isChainDependent = false)
    (vis vis' : VisibilitySpec) : l.hasChildrenExpr db vis = l.hasChildrenExpr db vis' := by
  cases l with
  | directOnly => simp [isChainDependent] at h
  | _ => rfl

end FilterLeaf

/-! ### Trees -/

/-- A filter tree. -/
inductive CompositeFilter where
  | and (children : List CompositeFilter)
  | or (children : List CompositeFilter)
  | not (inner : CompositeFilter)
  | leaf (leaf : FilterLeaf)

namespace CompositeFilter

/-- `CompositeFilter::and`: the conjunction of a single child is the child. -/
def mkAnd : List CompositeFilter → CompositeFilter
  | [c] => c
  | cs => .and cs

/-- `CompositeFilter::or`: the disjunction of a single child is the child. -/
def mkOr : List CompositeFilter → CompositeFilter
  | [c] => c
  | cs => .or cs

section Compose

variable {R : Type*}

/-- Conjoin the children that constrain; `none` when there are none. -/
def foldAnd : List (Option (R → Bool)) → Option (R → Bool)
  | [] => none
  | none :: es => foldAnd es
  | some e :: es => match foldAnd es with
    | none => some e
    | some e' => some fun r => e r && e' r

/-- Disjoin the children: nothing matches an empty disjunction, and a child without a
constraint leaves none on the whole. -/
def foldOr : List (Option (R → Bool)) → Option (R → Bool)
  | [] => some fun _ => false
  | none :: _ => none
  | some e :: es => (foldOr es).map fun e' r => e r || e' r

mutual

/-- `compose_method_vis`: compose a tree into one predicate of a query context, or
`none` for no constraint. -/
def compose (leafExpr : FilterLeaf → Option (R → Bool)) : CompositeFilter → Option (R → Bool)
  | .leaf l => leafExpr l
  | .and cs => foldAnd (composeAll leafExpr cs)
  | .or cs => foldOr (composeAll leafExpr cs)
  | .not c => (compose leafExpr c).map fun e r => !(e r)

/-- The composed children, in order. -/
def composeAll (leafExpr : FilterLeaf → Option (R → Bool)) :
    List CompositeFilter → List (Option (R → Bool))
  | [] => []
  | c :: cs => compose leafExpr c :: composeAll leafExpr cs

end

end Compose

mutual

/-- Whether any leaf is chain dependent. -/
def isChainDependent : CompositeFilter → Bool
  | .leaf l => l.isChainDependent
  | .and cs => isChainDependentAny cs
  | .or cs => isChainDependentAny cs
  | .not c => isChainDependent c

/-- Whether any tree of a list is chain dependent. -/
def isChainDependentAny : List CompositeFilter → Bool
  | [] => false
  | c :: cs => isChainDependent c || isChainDependentAny cs

end

mutual

/-- Whether the tree constrains has-children rows, read off its shape. -/
def constrainsHasChildren : CompositeFilter → Bool
  | .leaf l => l.constrainsHasChildren
  | .and cs => constrainsHasChildrenAny cs
  | .or cs => !cs.isEmpty && constrainsHasChildrenAll cs
  | .not c => constrainsHasChildren c

/-- Whether some tree of a list constrains has-children rows. -/
def constrainsHasChildrenAny : List CompositeFilter → Bool
  | [] => false
  | c :: cs => constrainsHasChildren c || constrainsHasChildrenAny cs

/-- Whether every tree of a list constrains has-children rows. -/
def constrainsHasChildrenAll : List CompositeFilter → Bool
  | [] => true
  | c :: cs => constrainsHasChildren c && constrainsHasChildrenAll cs

end

variable (db : Database)

/-- The predicate of the current query. -/
def composeCurrent : CompositeFilter → Option (CurrentRow → Bool) :=
  compose (FilterLeaf.currentExpr db)

/-- The predicate of the parents query. -/
def composeParents : CompositeFilter → Option (ParentsRow → Bool) :=
  compose FilterLeaf.parentsExpr

/-- The predicate of the children query. -/
def composeChildren (vis : VisibilitySpec) : CompositeFilter → Option (ChildrenRow → Bool) :=
  compose (FilterLeaf.childrenExpr db vis)

/-- The predicate of the has-parents query. -/
def composeHasParents (vis : VisibilitySpec) :
    CompositeFilter → Option (HasParentsRow → Bool) :=
  compose (FilterLeaf.hasParentsExpr db vis)

/-- The predicate of the has-children query. -/
def composeHasChildren (vis : VisibilitySpec) :
    CompositeFilter → Option (HasChildrenRow → Bool) :=
  compose (FilterLeaf.hasChildrenExpr db vis)

/-! ### Branch independence -/

mutual

/-- Leaves that agree wherever a tree is not chain dependent compose to one tree. -/
theorem compose_congr {R : Type*} {e e' : FilterLeaf → Option (R → Bool)}
    (he : ∀ l : FilterLeaf, l.isChainDependent = false → e l = e' l) :
    ∀ f : CompositeFilter, f.isChainDependent = false → compose e f = compose e' f
  | .leaf l, h => by simpa [compose] using he l (by simpa [isChainDependent] using h)
  | .and cs, h => by
    rw [isChainDependent] at h
    rw [compose, compose, composeAll_congr he cs h]
  | .or cs, h => by
    rw [isChainDependent] at h
    rw [compose, compose, composeAll_congr he cs h]
  | .not c, h => by
    rw [isChainDependent] at h
    rw [compose, compose, compose_congr he c h]

theorem composeAll_congr {R : Type*} {e e' : FilterLeaf → Option (R → Bool)}
    (he : ∀ l : FilterLeaf, l.isChainDependent = false → e l = e' l) :
    ∀ cs : List CompositeFilter, isChainDependentAny cs = false →
      composeAll e cs = composeAll e' cs
  | [], _ => rfl
  | c :: cs, h => by
    rw [isChainDependentAny, Bool.or_eq_false_iff] at h
    rw [composeAll, composeAll, compose_congr he c h.1, composeAll_congr he cs h.2]

end

variable {f : CompositeFilter}

theorem composeChildren_eq (h : f.isChainDependent = false) (vis vis' : VisibilitySpec) :
    f.composeChildren db vis = f.composeChildren db vis' :=
  compose_congr (fun _ hl => FilterLeaf.childrenExpr_eq db hl vis vis') f h

theorem composeHasParents_eq (h : f.isChainDependent = false) (vis vis' : VisibilitySpec) :
    f.composeHasParents db vis = f.composeHasParents db vis' :=
  compose_congr (fun _ hl => FilterLeaf.hasParentsExpr_eq db hl vis vis') f h

theorem composeHasChildren_eq (h : f.isChainDependent = false) (vis vis' : VisibilitySpec) :
    f.composeHasChildren db vis = f.composeHasChildren db vis' :=
  compose_congr (fun _ hl => FilterLeaf.hasChildrenExpr_eq db hl vis vis') f h

end CompositeFilter

end Askl
