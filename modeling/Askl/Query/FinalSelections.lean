import Askl.Index.Rows
import Askl.Library.Entries
import Mathlib.Algebra.Group.Int.Defs

/-!
# What a finished query has selected

When nothing is left to propagate, the selections of the statements are put together: the
selected nodes by their instances, with the statements they were selected by, and the edges
recorded in the selections.  The rows are those of the index as the program holds them, with
the bounds of a range as the driver reads them.

## Main definitions

* `Bound`, `rangeBoundsToOffsets` — the bounds of a range, and the offsets they stand for.
* `OffsetRange` — a range whose offsets are in order.
* `Loaded.Selection`, `Loaded.Statement` — the rows of a selection, and a statement with the
  selection it ended with.
* `nodeMap`, `allNodes` — the selected nodes, and the ids of their instances.

## Main results

* `mem_allNodes` — the ids are those of the nodes of all selections.
* `mem_allNodes_perm` — in whatever order the statements come.
-/

namespace Askl

open Entries

/-! ### Ranges -/

/-- `Bound<i32>`. -/
inductive Bound where
  | included (value : ℤ)
  | excluded (value : ℤ)
  | unbounded
  deriving DecidableEq, Repr

/-- `value.saturating_add(1)` on 32-bit integers. -/
def saturatingSucc (value : ℤ) : ℤ := min (value + 1) (2 ^ 31 - 1)

/-- `range_bounds_to_offsets`. -/
def rangeBoundsToOffsets (range : Bound × Bound) : Option (ℤ × ℤ) := do
  let start ← match range.1 with
    | .included value => some value
    | .excluded value => some (saturatingSucc value)
    | .unbounded => none
  let stop ← match range.2 with
    | .excluded value => some value
    | .included value => some (saturatingSucc value)
    | .unbounded => none
  return (start, stop)

/-- A range of offsets.  The server keeps no range whose bounds are in the wrong order, and
its bounds are 32-bit integers. -/
structure OffsetRange where
  bounds : Bound × Bound
  ordered : ∀ offsets, rangeBoundsToOffsets bounds = some offsets →
    -2 ^ 31 ≤ offsets.1 ∧ offsets.1 ≤ offsets.2 ∧ offsets.2 < 2 ^ 31
  deriving DecidableEq

/-- The offsets of a range, unless it is unbounded on some side. -/
def OffsetRange.offsets (range : OffsetRange) : Option (ℤ × ℤ) :=
  rangeBoundsToOffsets range.bounds

/-- A range as the driver reads it: the lower bound is in it, the upper one is not. -/
def OffsetRange.between (start stop : ℤ) (hstart : -2 ^ 31 ≤ start) (h : start ≤ stop)
    (hstop : stop < 2 ^ 31) : OffsetRange where
  bounds := (.included start, .excluded stop)
  ordered offsets hoffsets := by
    obtain rfl := Option.some.inj hoffsets
    exact ⟨hstart, h, hstop⟩

/-! ### Rows in memory -/

/-- `Occurrence`. -/
structure Occurrence where
  offsetRange : ℤ × ℤ
  file : ℤ
  deriving DecidableEq, Repr

/-- `QueryStatementRange`: the place of a statement in the query. -/
structure QueryStatementRange where
  start : ℕ
  stop : ℕ
  text : Text
  deriving DecidableEq, Repr

namespace Loaded

/-- `SymbolInstance`. -/
structure SymbolInstance where
  id : ℤ
  symbol : ℤ
  objectId : ℤ
  offsetRange : OffsetRange
  instanceType : ℤ
  deriving DecidableEq

/-- `SymbolRef`. -/
structure SymbolRef where
  id : ℤ
  toSymbol : ℤ
  fromOffsetRange : OffsetRange
  deriving DecidableEq

/-- `SelectionNode`. -/
structure SelectionNode where
  symbol : Symbol
  symbolInstance : SymbolInstance
  object : Object
  queryStatements : List QueryStatementRange
  deriving DecidableEq

/-- `ParentReference`: a reference to a selected symbol. -/
structure ParentReference where
  toSymbol : Symbol
  toInstance : SymbolInstance
  fromInstance : SymbolInstance
  symbolRef : SymbolRef

/-- `ChildReference`: a reference from a selected instance. -/
structure ChildReference where
  parentSymbol : Symbol
  symbolInstance : SymbolInstance
  fromInstance : SymbolInstance
  symbolRef : SymbolRef
  fromObject : Object

/-- `HasParentReference`: what contains a selected instance. -/
structure HasParentReference where
  childSymbol : Symbol
  childInstance : SymbolInstance
  parentSymbol : Symbol
  parentInstance : SymbolInstance

/-- `HasChildReference`: what a selected instance contains. -/
structure HasChildReference where
  parentSymbol : Symbol
  parentInstance : SymbolInstance
  childSymbol : Symbol
  childInstance : SymbolInstance

/-- `Selection`. -/
structure Selection where
  nodes : List SelectionNode
  parents : List ParentReference
  children : List ChildReference
  hasParents : List HasParentReference
  hasChildren : List HasChildReference

/-- A statement at the end of a query: its place, and its selection if it has one. -/
structure Statement where
  span : QueryStatementRange
  selection : Option Selection

end Loaded

/-! ### The selected nodes -/

/-- What the collection of the results panics at: a difference of 32-bit integers that
overflows, in a build with overflow checks, the offsets of an unbounded range, and the code of
a kind that is none. -/
inductive Panic where
  | overflow
  | unwrapNone
  | invalidType
  deriving DecidableEq, Repr

/-- The selections of the statements, one after the other. -/
def selections (statements : List Loaded.Statement) : List Loaded.Selection :=
  statements.filterMap (·.selection)

/-- The nodes of a statement, each with the place of the statement. -/
def taggedNodes (statement : Loaded.Statement) : List Loaded.SelectionNode :=
  match statement.selection with
  | none => []
  | some selection => selection.nodes.map fun node =>
    { node with queryStatements := node.queryStatements ++ [statement.span] }

/-- The map `execute` fills: the selected nodes by their instances, each with the places of
all statements that have selected it. -/
def nodeMap (statements : List Loaded.Statement) : AList fun _ : ℤ => Loaded.SelectionNode :=
  collect (fun node => node.symbolInstance.id) id
    (fun existing node =>
      { existing with queryStatements := existing.queryStatements ++ node.queryStatements })
    (statements.flatMap taggedNodes)

/-- The ids of the selected instances. -/
def allNodes (statements : List Loaded.Statement) : List ℤ := (nodeMap statements).keys

variable {statements statements' : List Loaded.Statement} {id : ℤ}

/-- The selected instances are those of the nodes of all selections. -/
theorem mem_allNodes : id ∈ allNodes statements ↔
    ∃ selection ∈ selections statements, ∃ node ∈ selection.nodes,
      node.symbolInstance.id = id := by
  rw [allNodes, ← AList.mem_keys, nodeMap, mem_collect]
  constructor
  · rintro ⟨node, hnode, rfl⟩
    obtain ⟨statement, hstatement, hnode⟩ := List.mem_flatMap.mp hnode
    unfold taggedNodes at hnode
    split at hnode
    · cases hnode
    · next selection hselection =>
      obtain ⟨node', hnode', rfl⟩ := List.mem_map.mp hnode
      exact ⟨selection, List.mem_filterMap.mpr ⟨statement, hstatement, hselection⟩, node', hnode',
        rfl⟩
  · rintro ⟨selection, hselection, node, hnode, rfl⟩
    obtain ⟨statement, hstatement, hselection⟩ := List.mem_filterMap.mp hselection
    refine ⟨{ node with queryStatements := node.queryStatements ++ [statement.span] },
      List.mem_flatMap.mpr ⟨statement, hstatement, ?_⟩, rfl⟩
    rw [taggedNodes, hselection]
    exact List.mem_map_of_mem hnode

/-- The order of the statements makes no difference to what is selected. -/
theorem mem_allNodes_perm (h : statements.Perm statements') :
    id ∈ allNodes statements ↔ id ∈ allNodes statements' := by
  rw [mem_allNodes, mem_allNodes]
  refine exists_congr fun selection => and_congr_left' ?_
  exact (h.filterMap _).mem_iff

end Askl
