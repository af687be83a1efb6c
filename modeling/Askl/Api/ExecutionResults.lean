import Askl.Api.ResultGraph
import Askl.Query.ContainmentEdges
import Askl.Query.ReferenceEdges

/-!
# Execution results

What a query hands on to the response: the selected nodes, one for each instance, the edges
between them and the warnings.

## Main definitions

* `finalNodes`, `RowsAgree` — the nodes of all selections, which are rows of keyed tables.
* `ExecutionResult` — a result, with what the nodes are known to be.
* `execute` — put a result together.

## Main results

* `mem_nodeMap` — a node of the result is one of a selection, but for its statements.
-/

namespace Askl

open Entries

/-! ### Nodes -/

/-- The nodes of all selections. -/
def finalNodes (statements : List Loaded.Statement) : List Loaded.SelectionNode :=
  (selections statements).flatMap (·.nodes)

/-- The kinds of a node's symbol and of its instance are kinds there are. -/
def Loaded.SelectionNode.Typed (n : Loaded.SelectionNode) : Prop :=
  (Api.SymbolType.ofCode n.symbol.symbolType).isSome = true ∧
    (Api.InstanceType.ofCode n.symbolInstance.instanceType).isSome = true

/-- The nodes of the selections are joined rows of tables with primary keys.  The ranges of
instances are stored with two bounds, and the columns of the kinds refer to the tables of
kinds. -/
structure RowsAgree (nodes : List Loaded.SelectionNode) : Prop where
  symbol_eq : ∀ n ∈ nodes, ∀ n' ∈ nodes, n.symbol.id = n'.symbol.id → n.symbol = n'.symbol
  joined : ∀ n ∈ nodes, n.symbolInstance.symbol = n.symbol.id
  bounded : ∀ n ∈ nodes, n.symbolInstance.offsetRange.offsets.isSome = true
  typed : ∀ n ∈ nodes, n.Typed

/-- `ExecutionResult`: the nodes have distinct instances and are rows; the warnings are given
as the response renders them. -/
structure ExecutionResult where
  nodes : List Loaded.SelectionNode
  edges : List RefEdge
  hasEdges : List HasEdge
  warnings : List Api.ErrorResponse
  instances_nodup : (nodes.map (·.symbolInstance.id)).Nodup
  rows : RowsAgree nodes

/-! ### The map of the nodes -/

variable {statements : List Loaded.Statement}

/-- The two nodes are one row. -/
def Loaded.SelectionNode.SameRow (n n' : Loaded.SelectionNode) : Prop :=
  n.symbol = n'.symbol ∧ n.symbolInstance = n'.symbolInstance ∧ n.object = n'.object

/-- A tagged node is a row of a selection. -/
theorem exists_of_mem_taggedNodes {n : Loaded.SelectionNode}
    (h : n ∈ statements.flatMap taggedNodes) : ∃ n' ∈ finalNodes statements, n.SameRow n' := by
  obtain ⟨statement, hstatement, h⟩ := List.mem_flatMap.mp h
  unfold taggedNodes at h
  split at h
  · cases h
  · next selection hselection =>
    obtain ⟨n', hn', rfl⟩ := List.mem_map.mp h
    refine ⟨n', List.mem_flatMap.mpr ⟨selection, ?_, hn'⟩, rfl, rfl, rfl⟩
    exact List.mem_filterMap.mpr ⟨statement, hstatement, hselection⟩

/-- A node of the map is a row of a selection, and has the instance it is entered under. -/
theorem mem_nodeMap {id : ℤ} {n : Loaded.SelectionNode}
    (h : (nodeMap statements).lookup id = some n) :
    n.symbolInstance.id = id ∧ ∃ n' ∈ finalNodes statements, n.SameRow n' := by
  let P (n : Loaded.SelectionNode) : Prop :=
    n.symbolInstance.id = id ∧ ∃ n' ∈ finalNodes statements, n.SameRow n'
  have hP : P n := by
    refine lookup_collect_induction (fun n hn hid => ⟨hid, exists_of_mem_taggedNodes hn⟩) ?_ h
    rintro existing ⟨hid, n', hn', hsame⟩ - - -
    exact ⟨hid, n', hn', hsame⟩
  exact hP

theorem RowsAgree.nodeMap (h : RowsAgree (finalNodes statements)) :
    RowsAgree (values (nodeMap statements)) := by
  have hrow : ∀ n ∈ values (Askl.nodeMap statements),
      ∃ n' ∈ finalNodes statements, n.SameRow n' := by
    intro n hn
    obtain ⟨id, hid⟩ := mem_values.mp hn
    exact (mem_nodeMap hid).2
  refine ⟨fun n hn n' hn' hid => ?_, fun n hn => ?_, fun n hn => ?_, fun n hn => ?_⟩
  · obtain ⟨m, hm, hsymbol, -, -⟩ := hrow n hn
    obtain ⟨m', hm', hsymbol', -, -⟩ := hrow n' hn'
    rw [hsymbol, hsymbol'] at hid ⊢
    exact h.symbol_eq m hm m' hm' hid
  · obtain ⟨m, hm, hsymbol, hinstance, -⟩ := hrow n hn
    rw [hsymbol, hinstance]
    exact h.joined m hm
  · obtain ⟨m, hm, -, hinstance, -⟩ := hrow n hn
    rw [hinstance]
    exact h.bounded m hm
  · obtain ⟨m, hm, hsymbol, hinstance, -⟩ := hrow n hn
    rw [Loaded.SelectionNode.Typed, hsymbol, hinstance]
    exact h.typed m hm

theorem RowsAgree.perm {nodes nodes' : List Loaded.SelectionNode} (h : RowsAgree nodes)
    (hperm : nodes'.Perm nodes) : RowsAgree nodes' where
  symbol_eq n hn n' hn' := h.symbol_eq n (hperm.mem_iff.mp hn) n' (hperm.mem_iff.mp hn')
  joined n hn := h.joined n (hperm.mem_iff.mp hn)
  bounded n hn := h.bounded n (hperm.mem_iff.mp hn)
  typed n hn := h.typed n (hperm.mem_iff.mp hn)

/-- The end of `Statement::execute`: the selected nodes and the edges between them. -/
def execute (overflowChecks : Bool) (order : HashOrder) (index : EdgeIndex)
    (statements : List Loaded.Statement) (h : RowsAgree (finalNodes statements))
    (warnings : List Api.ErrorResponse) : Except Panic ExecutionResult := do
  let refEdges ← collectRefEdges index statements (allNodes statements)
  let hasEdges ← collectHasEdges overflowChecks order statements (allNodes statements)
  return {
    nodes := order.iter (values (nodeMap statements))
    edges := order.iter refEdges
    hasEdges := hasEdges
    warnings := warnings
    instances_nodup := ((order.perm _).map _).nodup_iff.mpr
      (nodup_values fun _ _ hlookup => (mem_nodeMap hlookup).1)
    rows := h.nodeMap.perm (order.perm _) }

end Askl
