import Askl.Query.FinalSelections

/-!
# The graph of a response

The types of a query's response: nodes with their instances and the statements that selected
them, reference and containment edges, and the files instances lie in.  Ids are texts on the
wire.

## Main definitions

* `SymbolType`, `InstanceType` — the kinds of symbols and instances, and their codes.
* `Node`, `Edge`, `HasEdge`, `Graph` — the graph.
* `ResultGraph` — a graph whose edges join its nodes.
-/

namespace Askl.Api

/-- `to_string` of an id. -/
def idText (id : ℤ) : Text := (toString id).toList

/-! ### Kinds -/

/-- `SymbolType`. -/
inductive SymbolType where
  | function
  | file
  | module
  | directory
  | type
  | data
  | macro_
  | field
  | content
  deriving DecidableEq, Repr

/-- `SymbolType::from`, which panics at a code that is none. -/
def SymbolType.ofCode : ℤ → Option SymbolType
  | 1 => some .function
  | 2 => some .file
  | 3 => some .module
  | 4 => some .directory
  | 5 => some .type
  | 6 => some .data
  | 7 => some .macro_
  | 8 => some .field
  | 9 => some .content
  | _ => none

/-- `InstanceType`. -/
inductive InstanceType where
  | definition
  | declaration
  | expansion
  | sentinel
  | containment
  | source
  | header
  | build
  | file
  | documentation
  deriving DecidableEq, Repr

/-- `InstanceType::from`, which panics at a code that is none. -/
def InstanceType.ofCode : ℤ → Option InstanceType
  | 1 => some .definition
  | 2 => some .declaration
  | 3 => some .expansion
  | 4 => some .sentinel
  | 5 => some .containment
  | 6 => some .source
  | 7 => some .header
  | 8 => some .build
  | 9 => some .file
  | 10 => some .documentation
  | _ => none

/-! ### Graphs -/

/-- `NodeSymbolInstance`. -/
structure NodeSymbolInstance where
  id : Text
  symbol : Text
  objectId : Text
  projectId : Text
  symbolType : SymbolType
  instanceType : InstanceType
  startOffset : ℤ
  endOffset : ℤ
  deriving DecidableEq, Repr

/-- `Node`. -/
structure Node where
  id : ℤ
  label : Text
  symbolInstances : List NodeSymbolInstance
  queryStatements : List QueryStatementRange
  deriving DecidableEq, Repr

/-- `Edge`, a reference edge. -/
structure Edge where
  id : Text
  source : ℤ
  target : ℤ
  fromObject : Option ℤ
  fromProjectId : Option Text
  fromOffsetStart : Option ℤ
  fromOffsetEnd : Option ℤ
  deriving DecidableEq, Repr

/-- `Edge::new`. -/
def Edge.new (source target : ℤ) (occurrence : Option Occurrence) (fromProjectId : Option Text) :
    Edge where
  id := idText source ++ '-' :: idText target
  source := source
  target := target
  fromObject := occurrence.map (·.file)
  fromProjectId := fromProjectId
  fromOffsetStart := occurrence.map (·.offsetRange.1)
  fromOffsetEnd := occurrence.map (·.offsetRange.2)

/-- `HasEdge`, a containment edge. -/
structure HasEdge where
  id : Text
  parent : ℤ
  child : ℤ
  parentInstance : Text
  childInstance : Text
  deriving DecidableEq, Repr

/-- `HasEdge::new`. -/
def HasEdge.new (parent child parentInstance childInstance : ℤ) : HasEdge where
  id := "has-".toList ++ idText parent ++ '-' :: idText child ++ '-' :: idText parentInstance ++
    '-' :: idText childInstance
  parent := parent
  child := child
  parentInstance := idText parentInstance
  childInstance := idText childInstance

/-- `GraphObjectEntry`. -/
structure GraphObjectEntry where
  objectId : Text
  path : Text
  projectId : Text
  deriving DecidableEq, Repr

/-- `LineColLocation`. -/
inductive LineColLocation where
  | pos (position : ℕ × ℕ)
  | span (start stop : ℕ × ℕ)
  deriving DecidableEq, Repr

/-- `ErrorResponse`, as far as a response renders it. -/
structure ErrorResponse where
  message : Text
  lineCol : LineColLocation
  suggestions : List Text
  nameExists : Bool
  deriving DecidableEq, Repr

/-- `Graph`. -/
structure Graph where
  nodes : List Node
  edges : List Edge
  hasEdges : List HasEdge
  objects : List GraphObjectEntry
  warnings : List ErrorResponse
  truncated : Bool
  totalSymbols : ℕ
  deriving DecidableEq, Repr

/-- The pairs of symbols that the edges of a graph join, of either kind. -/
def Graph.joinedPairs (g : Graph) : List (ℤ × ℤ) :=
  (g.edges.map fun e => (e.source, e.target)) ++ g.hasEdges.map fun e => (e.parent, e.child)

/-- The graph of a result: a node for each symbol, each with an instance, and edges between the
nodes. -/
structure ResultGraph where
  graph : Graph
  ids_nodup : (graph.nodes.map (·.id)).Nodup
  instances_ne_nil : ∀ n ∈ graph.nodes, n.symbolInstances ≠ []
  joined : ∀ p ∈ graph.joinedPairs,
    p.1 ∈ graph.nodes.map (·.id) ∧ p.2 ∈ graph.nodes.map (·.id)

end Askl.Api
