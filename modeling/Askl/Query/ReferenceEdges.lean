import Askl.Index.Selection
import Askl.Library.Fallible
import Askl.Library.Keyed
import Askl.Query.FinalSelections

/-!
# Reference edges of a result

The reference edges of a result come from three sources: the fabricated references of forced
verbs, the references recorded in the selections, and those the index has between all
selected instances.  They go through one set of keys, of the instance an edge comes from, the
symbol it leads to and its place; the first edge of a key stands for all.

## Main definitions

* `RefCandidate` — a reference of any of the sources.
* `collectRefEdges` — the edges, unless a range is without bounds.
* `ImplicitEdge.candidate` — a reference of the index, when both its instances are selected.
* `RecordedRef` — a reference recorded in a selection.
* `RefEdgesRight` — what the edges must be.

## Main results

* `collectRefEdges_eq` — the edges are collected from one list of references.
* `refCollectionRight` — **the edges are right, and their keys are those of every order of the
  statements.**
-/

namespace Askl

open Entries

/-! ### Edges -/

/-- `SymbolNodeId`. -/
structure SymbolNodeId where
  symbolId : ℤ
  instanceId : ℤ
  deriving DecidableEq, Repr

/-- An element of `EdgeList`. -/
structure RefEdge where
  source : SymbolNodeId
  target : SymbolNodeId
  occurrence : Option Occurrence
  deriving DecidableEq, Repr

/-- The key edges are told apart by. -/
abbrev EdgeKey := ℤ × ℤ × Option Occurrence

/-- `edge_key`: the instance an edge comes from, the symbol it leads to, and its place. -/
def RefEdge.key (e : RefEdge) : EdgeKey :=
  (e.source.instanceId, e.target.symbolId, e.occurrence)

/-- A reference of one of the sources: its ends, and its place. -/
structure RefCandidate where
  source : SymbolNodeId
  target : SymbolNodeId
  file : ℤ
  range : OffsetRange
  deriving DecidableEq

/-- `range_bounds_to_offsets(..).unwrap()`, and the edge. -/
def RefCandidate.edge (c : RefCandidate) : Except Panic RefEdge :=
  match c.range.offsets with
  | none => .error .unwrapNone
  | some offsets => .ok ⟨c.source, c.target, some ⟨offsets, c.file⟩⟩

/-- The keys that have been seen, and the edges. -/
structure CollectedRefs where
  seenEdges : List EdgeKey
  allReferences : List RefEdge

/-- Nothing has been seen. -/
def CollectedRefs.new : CollectedRefs := ⟨[], []⟩

/-- Add an edge, unless its key has been seen. -/
def CollectedRefs.add (refs : CollectedRefs) (e : RefEdge) : CollectedRefs :=
  if e.key ∈ refs.seenEdges then refs
  else ⟨e.key :: refs.seenEdges, Keyed.insertNew id refs.allReferences e⟩

/-! ### The sources -/

namespace Loaded

/-- A fabricated reference has the id zero. -/
def ParentReference.isForced (parent : ParentReference) : Bool := parent.symbolRef.id == 0

/-- The reference to a selected symbol. -/
def ParentReference.candidate (parent : ParentReference) : RefCandidate where
  source := ⟨parent.fromInstance.symbol, parent.fromInstance.id⟩
  target := ⟨parent.toSymbol.id, parent.toInstance.id⟩
  file := parent.fromInstance.objectId
  range := parent.symbolRef.fromOffsetRange

/-- The reference from a selected instance. -/
def ChildReference.candidate (child : ChildReference) : RefCandidate where
  source := ⟨child.parentSymbol.id, child.fromInstance.id⟩
  target := ⟨child.symbolRef.toSymbol, child.symbolInstance.id⟩
  file := child.fromObject.id
  range := child.symbolRef.fromOffsetRange

/-- A row of `find_edges_between`. -/
structure ImplicitEdge where
  toSymbol : ℤ
  fromObject : ℤ
  fromOffsetRange : OffsetRange
  toInstanceId : ℤ
  fromInstanceId : ℤ

end Loaded

/-- Both ends of a reference are selected. -/
def RefCandidate.joins (all : List ℤ) (c : RefCandidate) : Bool :=
  all.contains c.source.instanceId && all.contains c.target.instanceId

/-- Add a reference, unless one of its ends is not selected. -/
def collectRef (all : List ℤ) (refs : CollectedRefs) (c : RefCandidate) :
    Except Panic CollectedRefs :=
  if c.joins all then c.edge.map refs.add else .ok refs

/-- The fabricated references of a selection. -/
def forcedRefs (selection : Loaded.Selection) : List RefCandidate :=
  (selection.parents.filter (·.isForced)).map (·.candidate)

/-- The references recorded in a selection, but for the fabricated ones. -/
def explicitRefs (selection : Loaded.Selection) : List RefCandidate :=
  selection.children.map (·.candidate) ++
    (selection.parents.filter fun parent => !parent.isForced).map (·.candidate)

/-- `instance_to_node`: the nodes of the selected instances; a later one replaces an earlier
one. -/
def instanceToNode (all : List ℤ) (statements : List Loaded.Statement) :
    AList fun _ : ℤ => SymbolNodeId :=
  collect (fun node => node.instanceId) id (fun _ node => node)
    (((selections statements).flatMap (·.nodes)).filterMap fun node =>
      if all.contains node.symbolInstance.id then
        some ⟨node.symbol.id, node.symbolInstance.id⟩
      else none)

/-- A reference of the index as one of the sources, when both its instances have nodes. -/
def Loaded.ImplicitEdge.candidate (nodes : AList fun _ : ℤ => SymbolNodeId)
    (edge : Loaded.ImplicitEdge) : Option RefCandidate := do
  let source ← nodes.lookup edge.fromInstanceId
  let target ← nodes.lookup edge.toInstanceId
  return ⟨source, ⟨edge.toSymbol, target.instanceId⟩, edge.fromObject, edge.fromOffsetRange⟩

/-- What `find_edges_between` says of instances; an error counts as no edges. -/
abbrev EdgeIndex := List ℤ → Option (List Loaded.ImplicitEdge)

/-- The references the index has between the selected instances. -/
def implicitRefs (index : EdgeIndex) (all : List ℤ) (statements : List Loaded.Statement) :
    List RefCandidate :=
  ((index (canonicalIds all)).getD []).filterMap fun edge =>
    edge.candidate (instanceToNode all statements)

/-- `collect_ref_edges`: the fabricated references of all statements, then the recorded ones,
then those of the index. -/
def collectRefEdges (index : EdgeIndex) (statements : List Loaded.Statement) (all : List ℤ) :
    Except Panic (List RefEdge) := do
  let refs ← (selections statements).foldlM
    (fun refs selection => (forcedRefs selection).foldlM (collectRef all) refs)
    CollectedRefs.new
  let refs ← (selections statements).foldlM
    (fun refs selection => (explicitRefs selection).foldlM (collectRef all) refs) refs
  let refs ← (implicitRefs index all statements).foldlM
    (fun refs c => c.edge.map refs.add) refs
  return refs.allReferences

/-! ### What the edges must be -/

/-- A reference recorded in a selection: a fabricated one, or one to or from a selected
instance. -/
inductive RecordedRef (statements : List Loaded.Statement) : RefCandidate → Prop
  | parent {selection : Loaded.Selection} {parent : Loaded.ParentReference} :
      selection ∈ selections statements → parent ∈ selection.parents →
      RecordedRef statements parent.candidate
  | child {selection : Loaded.Selection} {child : Loaded.ChildReference} :
      selection ∈ selections statements → child ∈ selection.children →
      RecordedRef statements child.candidate

/-- There is one edge at most for a source instance, a target symbol and an occurrence; both
instances of an edge are selected; and every recorded reference between selected instances,
fabricated or not, is represented by an edge with its source instance, target symbol and
occurrence. -/
structure RefEdgesRight (statements : List Loaded.Statement) (edges : List RefEdge) : Prop where
  unique : (edges.map RefEdge.key).Nodup
  selected : ∀ e ∈ edges,
    e.source.instanceId ∈ allNodes statements ∧ e.target.instanceId ∈ allNodes statements
  represented : ∀ c, RecordedRef statements c → c.joins (allNodes statements) = true →
    ∃ offsets, c.range.offsets = some offsets ∧
      ∃ e ∈ edges, e.key = (c.source.instanceId, c.target.symbolId, some ⟨offsets, c.file⟩)

/-- The references that become edges: those recorded between selected instances, and those of
the index. -/
def refCandidates (index : EdgeIndex) (all : List ℤ) (statements : List Loaded.Statement) :
    List RefCandidate :=
  ((selections statements).flatMap forcedRefs ++
    (selections statements).flatMap explicitRefs).filter (RefCandidate.joins all) ++
      implicitRefs index all statements

/-- Edges are returned exactly when none of the references has a range without bounds, they
are right whenever they are returned, and the same statements in another order have edges
with the same keys. -/
structure RefCollectionRight (index : EdgeIndex) (statements : List Loaded.Statement) :
    Prop where
  returns_iff : (∃ edges, collectRefEdges index statements (allNodes statements) = .ok edges) ↔
    ∀ c ∈ refCandidates index (allNodes statements) statements, c.range.offsets.isSome = true
  right : ∀ edges, collectRefEdges index statements (allNodes statements) = .ok edges →
    RefEdgesRight statements edges
  order : ∀ statements', statements.Perm statements' → ∀ edges,
    collectRefEdges index statements (allNodes statements) = .ok edges →
    ∃ edges', collectRefEdges index statements' (allNodes statements') = .ok edges' ∧
      ∀ key, key ∈ edges.map RefEdge.key ↔ key ∈ edges'.map RefEdge.key

/-! ### Adding edges -/

namespace CollectedRefs

/-- The keys that have been seen are those of the edges, which are distinct. -/
structure Inv (refs : CollectedRefs) : Prop where
  seen : ∀ key, key ∈ refs.seenEdges ↔ key ∈ refs.allReferences.map RefEdge.key
  nodup : (refs.allReferences.map RefEdge.key).Nodup

/-- A new edge is appended. -/
theorem Inv.add_eq {refs : CollectedRefs} (h : refs.Inv) (e : RefEdge) :
    (refs.add e).allReferences = if e.key ∈ refs.allReferences.map RefEdge.key
      then refs.allReferences else refs.allReferences ++ [e] := by
  unfold add
  rw [apply_ite allReferences]
  refine if_congr (h.seen e.key) rfl rfl |>.trans ?_
  split
  · rfl
  · next hnew =>
    refine Keyed.insertNew_of_notMem ?_
    rintro ⟨e', he', rfl⟩
    exact hnew (List.mem_map_of_mem he')

theorem Inv.add {refs : CollectedRefs} (h : refs.Inv) (e : RefEdge) : (refs.add e).Inv := by
  refine ⟨fun key => ?_, ?_⟩
  · rw [h.add_eq]
    unfold CollectedRefs.add
    by_cases hseen : e.key ∈ refs.seenEdges
    · rw [if_pos hseen, if_pos ((h.seen _).mp hseen)]
      exact h.seen key
    · rw [if_neg hseen, if_neg fun hkey => hseen ((h.seen _).mpr hkey), List.mem_cons, h.seen,
        List.map_append, List.mem_append, List.map_singleton, List.mem_singleton]
      exact or_comm
  · rw [h.add_eq]
    split
    · exact h.nodup
    · next hnew =>
      rw [List.map_append, List.map_singleton]
      exact h.nodup.append (List.nodup_singleton _) (by simpa using hnew)

/-- Some edges are added: their keys are there afterwards, and nothing else is new. -/
theorem Inv.foldl {refs : CollectedRefs} (h : refs.Inv) (es : List RefEdge) :
    (es.foldl CollectedRefs.add refs).Inv ∧
      (∀ key, key ∈ (es.foldl CollectedRefs.add refs).allReferences.map RefEdge.key ↔
        key ∈ refs.allReferences.map RefEdge.key ∨ key ∈ es.map RefEdge.key) ∧
      ∀ e ∈ (es.foldl CollectedRefs.add refs).allReferences, e ∈ refs.allReferences ∨ e ∈ es := by
  induction es generalizing refs with
  | nil => exact ⟨h, by simp, fun e he => Or.inl he⟩
  | cons e es ih =>
    obtain ⟨hinv, hkeys, hmem⟩ := ih (h.add e)
    refine ⟨hinv, fun key => ?_, fun e' he' => ?_⟩
    · rw [List.foldl_cons, hkeys, h.add_eq, List.map_cons, List.mem_cons, ← or_assoc]
      refine or_congr_left ?_
      split
      · next hold =>
        refine (or_iff_left_of_imp ?_).symm
        rintro rfl
        exact hold
      · rw [List.map_append, List.mem_append, List.map_singleton, List.mem_singleton]
    · rw [List.mem_cons]
      rcases hmem e' he' with he' | he'
      · rw [h.add_eq] at he'
        split at he'
        · exact Or.inl he'
        · rcases List.mem_append.mp he' with he' | he'
          · exact Or.inl he'
          · exact Or.inr (Or.inl (List.mem_singleton.mp he'))
      · exact Or.inr (Or.inr he')

end CollectedRefs

/-! ### One list of references -/

section Collect

variable {index : EdgeIndex} {statements statements' : List Loaded.Statement} {all : List ℤ}

/-- The edges are collected from one list of references. -/
theorem collectRefEdges_eq : collectRefEdges index statements all =
    ((refCandidates index all statements).mapM RefCandidate.edge).map fun es =>
      (es.foldl CollectedRefs.add .new).allReferences := by
  have hrecorded : ∀ (refsOf : Loaded.Selection → List RefCandidate) (refs : CollectedRefs),
      (selections statements).foldlM (fun refs s => (refsOf s).foldlM (collectRef all) refs) refs =
        ((((selections statements).flatMap refsOf).filter (RefCandidate.joins all)).mapM
          RefCandidate.edge).map fun es => es.foldl CollectedRefs.add refs := by
    intro refsOf refs
    rw [← Fallible.foldlM_flatMap]
    exact Fallible.foldlM_eq_mapM (fun _ _ => rfl) _ refs
  have himplicit : ∀ (cs : List RefCandidate) (refs : CollectedRefs),
      cs.foldlM (fun refs c => c.edge.map refs.add) refs =
        (cs.mapM RefCandidate.edge).map fun es => es.foldl CollectedRefs.add refs := by
    intro cs refs
    refine (Fallible.foldlM_eq_mapM (p := fun _ => true) (fun _ _ => rfl) cs refs).trans ?_
    rw [List.filter_true]
  unfold collectRefEdges refCandidates
  simp only [hrecorded, himplicit, List.filter_append, List.mapM_append]
  generalize ((List.flatMap forcedRefs (selections statements)).filter
    (RefCandidate.joins all)).mapM RefCandidate.edge = x
  generalize ((List.flatMap explicitRefs (selections statements)).filter
    (RefCandidate.joins all)).mapM RefCandidate.edge = y
  generalize (implicitRefs index all statements).mapM RefCandidate.edge = z
  cases x with
  | error e => rfl
  | ok es₁ =>
    cases y with
    | error e => rfl
    | ok es₂ =>
      cases z with
      | error e => rfl
      | ok es₃ =>
        show Except.ok _ = Except.ok ((es₁ ++ es₂ ++ es₃).foldl CollectedRefs.add .new).allReferences
        rw [List.foldl_append, List.foldl_append]

theorem RefCandidate.edge_eq_ok {c : RefCandidate} {e : RefEdge} : c.edge = .ok e ↔
    ∃ offsets, c.range.offsets = some offsets ∧
      ⟨c.source, c.target, some ⟨offsets, c.file⟩⟩ = e := by
  unfold edge
  cases c.range.offsets <;> simp

/-- Edges are returned when every range has two bounds. -/
theorem exists_collectRefEdges :
    (∃ edges, collectRefEdges index statements all = .ok edges) ↔
      ∀ c ∈ refCandidates index all statements, c.range.offsets.isSome = true := by
  rw [collectRefEdges_eq]
  constructor
  · rintro ⟨edges, h⟩ c hc
    obtain ⟨es, hes, -⟩ := Fallible.map_eq_ok.mp h
    obtain ⟨e, -, he⟩ := Fallible.exists_mem_mapM hes hc
    obtain ⟨offsets, hoffsets, -⟩ := RefCandidate.edge_eq_ok.mp he
    rw [hoffsets]
    rfl
  · intro h
    obtain ⟨es, hes⟩ := Fallible.exists_mapM fun c hc => by
      obtain ⟨offsets, hoffsets⟩ := Option.isSome_iff_exists.mp (h c hc)
      exact ⟨_, RefCandidate.edge_eq_ok.mpr ⟨offsets, hoffsets, rfl⟩⟩
    exact ⟨_, Fallible.map_eq_ok.mpr ⟨es, hes, rfl⟩⟩

/-- What is collected: edges with distinct keys, those of the references; every edge is that of
a reference. -/
theorem of_collectRefEdges {edges : List RefEdge}
    (h : collectRefEdges index statements all = .ok edges) :
    (edges.map RefEdge.key).Nodup ∧
      (∀ key, key ∈ edges.map RefEdge.key ↔
        ∃ c ∈ refCandidates index all statements, ∃ e, c.edge = .ok e ∧ e.key = key) ∧
      ∀ e ∈ edges, ∃ c ∈ refCandidates index all statements, c.edge = .ok e := by
  rw [collectRefEdges_eq] at h
  obtain ⟨es, hes, rfl⟩ := Fallible.map_eq_ok.mp h
  have hnew : CollectedRefs.new.Inv := ⟨fun key => by simp [CollectedRefs.new], List.nodup_nil⟩
  obtain ⟨hinv, hkeys, hmem⟩ := hnew.foldl es
  refine ⟨hinv.nodup, fun key => ?_, fun e he => ?_⟩
  · have hnone : key ∉ CollectedRefs.new.allReferences.map RefEdge.key := List.not_mem_nil
    rw [hkeys, or_iff_right hnone, List.mem_map]
    constructor
    · rintro ⟨e, he, hkey⟩
      obtain ⟨c, hc, hedge⟩ := Fallible.exists_of_mem_mapM hes he
      exact ⟨c, hc, e, hedge, hkey⟩
    · rintro ⟨c, hc, e, hedge, hkey⟩
      obtain ⟨e', he', hedge'⟩ := Fallible.exists_mem_mapM hes hc
      obtain rfl : e' = e := Except.ok.inj (hedge'.symm.trans hedge)
      exact ⟨e', he', hkey⟩
  · rcases hmem e he with he | he
    · cases he
    · exact Fallible.exists_of_mem_mapM hes he

end Collect

/-! ### The references -/

section Candidates

variable {index : EdgeIndex} {statements statements' : List Loaded.Statement} {c : RefCandidate}

/-- Every recorded reference is in one of the lists, the fabricated ones in the first. -/
theorem mem_recorded : c ∈ (selections statements).flatMap forcedRefs ++
      (selections statements).flatMap explicitRefs ↔ RecordedRef statements c := by
  rw [List.mem_append, List.mem_flatMap, List.mem_flatMap]
  constructor
  · rintro (⟨selection, hselection, hc⟩ | ⟨selection, hselection, hc⟩)
    · obtain ⟨parent, hparent, rfl⟩ := List.mem_map.mp hc
      exact .parent hselection (List.mem_filter.mp hparent).1
    · rcases List.mem_append.mp hc with hc | hc
      · obtain ⟨child, hchild, rfl⟩ := List.mem_map.mp hc
        exact .child hselection hchild
      · obtain ⟨parent, hparent, rfl⟩ := List.mem_map.mp hc
        exact .parent hselection (List.mem_filter.mp hparent).1
  · intro h
    cases h with
    | @parent selection parent hselection hparent =>
      cases hforced : parent.isForced with
      | true =>
        exact Or.inl ⟨selection, hselection,
          List.mem_map_of_mem (List.mem_filter.mpr ⟨hparent, hforced⟩)⟩
      | false =>
        refine Or.inr ⟨selection, hselection, List.mem_append_right _ ?_⟩
        exact List.mem_map_of_mem (List.mem_filter.mpr ⟨hparent, by rw [hforced]; rfl⟩)
    | @child selection child hselection hchild =>
      exact Or.inr ⟨selection, hselection, List.mem_append_left _ (List.mem_map_of_mem hchild)⟩

/-- The map from instances to nodes has a node of each selected instance. -/
theorem mem_instanceToNode {id : ℤ} :
    id ∈ instanceToNode (allNodes statements) statements ↔ id ∈ allNodes statements := by
  rw [instanceToNode, mem_collect]
  constructor
  · rintro ⟨node, hnode, rfl⟩
    obtain ⟨row, -, hrow⟩ := List.mem_filterMap.mp hnode
    split at hrow
    · next hselected =>
      obtain rfl := Option.some.inj hrow
      exact List.contains_iff_mem.mp hselected
    · cases hrow
  · intro hid
    obtain ⟨selection, hselection, row, hrow, rfl⟩ := mem_allNodes.mp hid
    refine ⟨⟨row.symbol.id, row.symbolInstance.id⟩, List.mem_filterMap.mpr ⟨row, ?_, ?_⟩, rfl⟩
    · exact List.mem_flatMap.mpr ⟨selection, hselection, hrow⟩
    · exact if_pos (List.contains_iff_mem.mpr hid)

/-- A node of the map is one of its instance. -/
theorem instanceId_of_lookup {all : List ℤ} {id : ℤ} {node : SymbolNodeId}
    (h : (instanceToNode all statements).lookup id = some node) : node.instanceId = id := by
  let P (node : SymbolNodeId) : Prop := node.instanceId = id
  have hP : P node := lookup_collect_induction (fun _ _ hkey => hkey) (fun _ _ _ _ hkey => hkey) h
  exact hP

/-- The key of a reference, unless its range is without bounds. -/
def RefCandidate.key (c : RefCandidate) : Option EdgeKey :=
  c.range.offsets.map fun offsets =>
    (c.source.instanceId, c.target.symbolId, some ⟨offsets, c.file⟩)

theorem RefCandidate.key_eq_some {key : EdgeKey} :
    c.key = some key ↔ ∃ e, c.edge = .ok e ∧ e.key = key := by
  unfold RefCandidate.key RefCandidate.edge
  cases c.range.offsets <;> simp [RefEdge.key]

/-- The ends of a reference of the index are those of its row. -/
theorem Loaded.ImplicitEdge.candidate_eq_some {all : List ℤ} {edge : Loaded.ImplicitEdge}
    (h : edge.candidate (instanceToNode all statements) = some c) :
    edge.fromInstanceId ∈ instanceToNode all statements ∧
      edge.toInstanceId ∈ instanceToNode all statements ∧
      c.source.instanceId = edge.fromInstanceId ∧ c.target.instanceId = edge.toInstanceId ∧
      c.key = edge.fromOffsetRange.offsets.map fun offsets =>
        (edge.fromInstanceId, edge.toSymbol, some ⟨offsets, edge.fromObject⟩) := by
  unfold Loaded.ImplicitEdge.candidate at h
  obtain ⟨source, hsource, h⟩ := Option.bind_eq_some_iff.mp h
  obtain ⟨target, htarget, h⟩ := Option.bind_eq_some_iff.mp h
  obtain rfl := Option.some.inj h
  have hfrom := instanceId_of_lookup hsource
  have hto := instanceId_of_lookup htarget
  refine ⟨AList.lookup_isSome.mp (hsource ▸ rfl), AList.lookup_isSome.mp (htarget ▸ rfl),
    hfrom, hto, ?_⟩
  rw [← hfrom]
  rfl

/-- Both ends of a reference of the index are selected. -/
theorem joins_of_mem_implicitRefs
    (h : c ∈ implicitRefs index (allNodes statements) statements) :
    c.joins (allNodes statements) = true := by
  obtain ⟨edge, -, hedge⟩ := List.mem_filterMap.mp h
  obtain ⟨hfrom, hto, hsource, htarget, -⟩ := Loaded.ImplicitEdge.candidate_eq_some hedge
  rw [RefCandidate.joins, Bool.and_eq_true, List.contains_iff_mem, List.contains_iff_mem,
    hsource, htarget]
  exact ⟨mem_instanceToNode.mp hfrom, mem_instanceToNode.mp hto⟩

/-- The keys of the references of the index are those of rows between selected instances. -/
theorem exists_implicitRefs {key : Option EdgeKey} :
    (∃ c ∈ implicitRefs index (allNodes statements) statements, c.key = key) ↔
      ∃ edge ∈ (index (canonicalIds (allNodes statements))).getD [],
        edge.fromInstanceId ∈ allNodes statements ∧ edge.toInstanceId ∈ allNodes statements ∧
          (edge.fromOffsetRange.offsets.map fun offsets =>
            (edge.fromInstanceId, edge.toSymbol, some ⟨offsets, edge.fromObject⟩)) = key := by
  constructor
  · rintro ⟨c, hc, rfl⟩
    obtain ⟨edge, hedge, hc⟩ := List.mem_filterMap.mp hc
    obtain ⟨hfrom, hto, -, -, hkey⟩ := Loaded.ImplicitEdge.candidate_eq_some hc
    exact ⟨edge, hedge, mem_instanceToNode.mp hfrom, mem_instanceToNode.mp hto, hkey.symm⟩
  · rintro ⟨edge, hedge, hfrom, hto, rfl⟩
    obtain ⟨source, hsource⟩ := Option.isSome_iff_exists.mp
      (AList.lookup_isSome.mpr (mem_instanceToNode.mpr hfrom))
    obtain ⟨target, htarget⟩ := Option.isSome_iff_exists.mp
      (AList.lookup_isSome.mpr (mem_instanceToNode.mpr hto))
    have hc : edge.candidate (instanceToNode (allNodes statements) statements) =
        some ⟨source, ⟨edge.toSymbol, target.instanceId⟩, edge.fromObject,
          edge.fromOffsetRange⟩ := by
      rw [Loaded.ImplicitEdge.candidate, hsource, htarget]
      rfl
    exact ⟨_, List.mem_filterMap.mpr ⟨edge, hedge, hc⟩,
      (Loaded.ImplicitEdge.candidate_eq_some hc).2.2.2.2⟩

/-- The order of the statements makes no difference to the keys of the references. -/
theorem exists_refCandidates_perm (h : statements.Perm statements') {key : Option EdgeKey} :
    (∃ c ∈ refCandidates index (allNodes statements) statements, c.key = key) ↔
      ∃ c ∈ refCandidates index (allNodes statements') statements', c.key = key := by
  have hall : ∀ id, id ∈ allNodes statements ↔ id ∈ allNodes statements' :=
    fun id => mem_allNodes_perm h
  have hselections : (selections statements).Perm (selections statements') := h.filterMap _
  have hrecorded : ∀ c, RecordedRef statements c ↔ RecordedRef statements' c := by
    intro c
    rw [← mem_recorded, ← mem_recorded, List.mem_append, List.mem_append]
    exact or_congr (hselections.flatMap_right _).mem_iff (hselections.flatMap_right _).mem_iff
  have hjoins : ∀ c : RefCandidate,
      c.joins (allNodes statements) = c.joins (allNodes statements') := by
    intro c
    rw [Bool.eq_iff_iff]
    simp only [RefCandidate.joins, Bool.and_eq_true, List.contains_iff_mem, hall]
  simp only [refCandidates, List.mem_append, or_and_right, exists_or]
  refine or_congr (exists_congr fun c => and_congr_left' ?_) ?_
  · rw [List.mem_filter, List.mem_filter, mem_recorded, mem_recorded, hrecorded, hjoins]
  · rw [exists_implicitRefs, exists_implicitRefs, canonicalIds_eq_iff.mpr hall]
    simp only [hall]

end Candidates

/-! ### The claim -/

variable {index : EdgeIndex} {statements statements' : List Loaded.Statement}

/-- The edges that are returned are right. -/
theorem refEdgesRight {edges : List RefEdge}
    (h : collectRefEdges index statements (allNodes statements) = .ok edges) :
    RefEdgesRight statements edges := by
  obtain ⟨hunique, hkeys, hmem⟩ := of_collectRefEdges h
  refine ⟨hunique, fun e he => ?_, fun c hc hjoins => ?_⟩
  · obtain ⟨c, hc, hedge⟩ := hmem e he
    obtain ⟨offsets, -, rfl⟩ := RefCandidate.edge_eq_ok.mp hedge
    have hjoins : c.joins (allNodes statements) = true := by
      rcases List.mem_append.mp hc with hc | hc
      · exact (List.mem_filter.mp hc).2
      · exact joins_of_mem_implicitRefs hc
    rwa [RefCandidate.joins, Bool.and_eq_true, List.contains_iff_mem, List.contains_iff_mem]
      at hjoins
  · have hin : c ∈ refCandidates index (allNodes statements) statements :=
      List.mem_append_left _ (List.mem_filter.mpr ⟨mem_recorded.mpr hc, hjoins⟩)
    obtain ⟨offsets, hoffsets⟩ := Option.isSome_iff_exists.mp
      (exists_collectRefEdges.mp ⟨edges, h⟩ c hin)
    refine ⟨offsets, hoffsets, List.mem_map.mp ((hkeys _).mpr ⟨c, hin, ?_⟩)⟩
    exact ⟨_, RefCandidate.edge_eq_ok.mpr ⟨offsets, hoffsets, rfl⟩, rfl⟩

/-- Right edges are right in any order. -/
theorem RefEdgesRight.perm {edges edges' : List RefEdge} (h : RefEdgesRight statements edges)
    (hperm : edges'.Perm edges) : RefEdgesRight statements edges' where
  unique := (hperm.map _).nodup_iff.mpr h.unique
  selected e he := h.selected e (hperm.mem_iff.mp he)
  represented c hc hjoins := by
    obtain ⟨offsets, hoffsets, e, he, hkey⟩ := h.represented c hc hjoins
    exact ⟨offsets, hoffsets, e, hperm.mem_iff.mpr he, hkey⟩

/-- The order of the statements makes no difference to the keys of the edges. -/
theorem keys_collectRefEdges_perm (hperm : statements.Perm statements') {edges : List RefEdge}
    (h : collectRefEdges index statements (allNodes statements) = .ok edges) :
    ∃ edges', collectRefEdges index statements' (allNodes statements') = .ok edges' ∧
      ∀ key, key ∈ edges.map RefEdge.key ↔ key ∈ edges'.map RefEdge.key := by
  have hbounded : ∀ c ∈ refCandidates index (allNodes statements') statements',
      c.range.offsets.isSome = true := by
    intro c hc
    by_contra hnone
    have hkey : c.key = none := by
      rw [RefCandidate.key, Option.not_isSome_iff_eq_none.mp hnone]
      rfl
    obtain ⟨c', hc', hkey'⟩ := (exists_refCandidates_perm hperm).mpr ⟨c, hc, hkey⟩
    have hsome := exists_collectRefEdges.mp ⟨edges, h⟩ c' hc'
    rw [RefCandidate.key, Option.map_eq_none_iff] at hkey'
    rw [hkey'] at hsome
    cases hsome
  obtain ⟨edges', h'⟩ := exists_collectRefEdges.mpr hbounded
  refine ⟨edges', h', fun key => ?_⟩
  rw [(of_collectRefEdges h).2.1, (of_collectRefEdges h').2.1]
  simp only [← RefCandidate.key_eq_some]
  exact exists_refCandidates_perm hperm

/-- **The edges are right, and their keys are those of every order of the statements.** -/
theorem refCollectionRight (index : EdgeIndex) (statements : List Loaded.Statement) :
    RefCollectionRight index statements where
  returns_iff := exists_collectRefEdges
  right _ h := refEdgesRight h
  order _ hperm _ h := keys_collectRefEdges_perm hperm h

end Askl
