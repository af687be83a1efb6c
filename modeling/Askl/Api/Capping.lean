import Askl.Api.ExecutionResults
import Mathlib.Data.Char
import Mathlib.Data.List.Lex
import Mathlib.Data.Prod.Lex
import Mathlib.Order.Bounds.Basic

/-!
# The cap on the symbols of a response

A response shows the first symbols of a result, by the path and the offset of their first
instance and then by their id, as many as the limit allows.  Edges are kept when both their
symbols are, and the nodes are built again from the selected instances.

## Main definitions

* `nodeKey`, `symKey` — the place of a node, and the least place of each symbol.
* `selectKept` — the symbols that survive the cap.
* `buildGraph` — the graph of the response.
* `RankedSymbols` — the symbols of a result in their order.
* `CappedRight` — what the graph must be.

## Main results

* `rankedSymbols_rankedIds` — the symbols are sorted by their least places.
* `mem_selectKept` — the first of them are kept.
* `cappedRight` — **the graph is right for every result and every limit.**
* `CappedRight.resultGraph` — its edges join its nodes.
-/

namespace Askl.Api

open Entries

/-! ### The cap -/

/-- A place: a path and an offset. -/
abbrev Place := Text ×ₗ ℤ

/-- The place of a node; an unbounded range counts as one from zero. -/
def nodeKey (n : Loaded.SelectionNode) : Place :=
  toLex (n.object.filesystemPath, (n.symbolInstance.offsetRange.offsets.map (·.1)).getD 0)

/-- `sym_key`: the least place of each symbol. -/
def symKey (nodes : List Loaded.SelectionNode) : AList fun _ : ℤ => Place :=
  collect (fun n => n.symbol.id) nodeKey
    (fun k n => if nodeKey n < k then nodeKey n else k) nodes

/-- What symbols are sorted by: their least place, and their id. -/
def rank (key : AList fun _ : ℤ => Place) (id : ℤ) : Place ×ₗ ℤ :=
  toLex ((key.lookup id).getD (toLex ([], 0)), id)

/-- The symbols in their order. -/
def rankedIds (key : AList fun _ : ℤ => Place) : List ℤ :=
  key.keys.insertionSort fun a b => rank key a ≤ rank key b

/-- `select_kept`: the symbols that survive the cap, and whether some do not. -/
def selectKept (key : AList fun _ : ℤ => Place) (cap : ℕ) : List ℤ × Bool :=
  if cap = 0 ∨ key.keys.length ≤ cap then (key.keys, false)
  else ((rankedIds key).take cap, true)

/-! ### The graph -/

/-- `object_projects`: the project of each file. -/
def objectProjects (nodes : List Loaded.SelectionNode) : AList fun _ : ℤ => ℤ :=
  collect (fun n => n.object.id) (fun n => n.object.projectId) (fun project _ => project) nodes

/-- `all_symbols`. -/
def allSymbols (nodes : List Loaded.SelectionNode) : List Symbol := (nodes.map (·.symbol)).dedup

/-- The reference edges whose symbols are both kept. -/
def keptEdges (kept : List ℤ) (projects : AList fun _ : ℤ => ℤ) (edges : List RefEdge) :
    List Edge :=
  (edges.filter fun e =>
      kept.contains e.source.symbolId && kept.contains e.target.symbolId).map fun e =>
    Edge.new e.source.symbolId e.target.symbolId e.occurrence
      (e.occurrence.bind fun o => (projects.lookup o.file).map idText)

/-- The containment edges whose symbols are both kept. -/
def keptHasEdges (kept : List ℤ) (edges : List Askl.HasEdge) : List HasEdge :=
  (edges.filter fun e => kept.contains e.parent && kept.contains e.child).map fun e =>
    HasEdge.new e.parent e.child e.parentInstance e.childInstance

/-- The nodes whose instance is one of a symbol. -/
def ownNodes (nodes : List Loaded.SelectionNode) (symbol : Symbol) : List Loaded.SelectionNode :=
  nodes.filter fun n => n.symbolInstance.symbol == symbol.id

/-- An instance of a graph's node. -/
def nodeInstance (symbol : Symbol) (n : Loaded.SelectionNode) :
    Except Panic NodeSymbolInstance :=
  match n.symbolInstance.offsetRange.offsets with
  | none => .error .unwrapNone
  | some (startOffset, endOffset) =>
    match SymbolType.ofCode symbol.symbolType,
        InstanceType.ofCode n.symbolInstance.instanceType with
    | some symbolType, some instanceType => .ok {
        id := idText n.symbolInstance.id
        symbol := idText n.symbolInstance.symbol
        objectId := idText n.object.id
        projectId := idText n.object.projectId
        symbolType := symbolType
        instanceType := instanceType
        startOffset := startOffset
        endOffset := endOffset }
    | _, _ => .error .invalidType

/-- A node of the graph: the instances of a symbol, and the statements that selected them. -/
def graphNode (nodes : List Loaded.SelectionNode) (symbol : Symbol) : Except Panic Node :=
  ((ownNodes nodes symbol).mapM (nodeInstance symbol)).map fun instances => {
    id := symbol.id
    label := symbol.name
    symbolInstances := instances
    queryStatements := Keyed.dedupByKey (fun s => (s.start, s.stop)) []
      ((ownNodes nodes symbol).flatMap (·.queryStatements)) }

/-- The file of a node. -/
def objectEntry (n : Loaded.SelectionNode) : GraphObjectEntry where
  objectId := idText n.object.id
  path := n.object.filesystemPath
  projectId := idText n.object.projectId

/-- `result_objects`: the files of the instances of some symbols. -/
def resultObjects (nodes : List Loaded.SelectionNode) (symbols : List Symbol) :
    AList fun _ : ℤ => GraphObjectEntry :=
  collect (fun n => n.object.id) objectEntry (fun entry _ => entry)
    (symbols.flatMap (ownNodes nodes))

/-- The graph of a response.  The limit of the request is that of the server if there is none,
and zero stands for no limit. -/
def buildGraph (order : HashOrder) (limit : Option ℕ) (maxResultSymbols : ℕ)
    (res : ExecutionResult) : Except Panic Graph :=
  let cap := limit.getD maxResultSymbols
  let kept := selectKept (symKey res.nodes) cap
  let symbols := (order.iter (allSymbols res.nodes)).filter fun s => kept.1.contains s.id
  (symbols.mapM (graphNode res.nodes)).map fun nodes => {
    nodes := nodes
    edges := keptEdges kept.1 (objectProjects res.nodes) res.edges
    hasEdges := keptHasEdges kept.1 res.hasEdges
    objects := order.iter (values (resultObjects res.nodes symbols))
    warnings := res.warnings
    truncated := kept.2
    totalSymbols := (allSymbols res.nodes).length }

/-! ### What the graph must be -/

/-- The distinct symbols of a result, in the order of their least places and then of their
ids. -/
structure RankedSymbols (nodes : List Loaded.SelectionNode) (ranked : List ℤ) : Prop where
  mem_iff : ∀ id, id ∈ ranked ↔ ∃ n ∈ nodes, n.symbol.id = id
  sorted : ranked.Pairwise fun a b => ∃ k k',
    IsLeast {k | ∃ n ∈ nodes, n.symbol.id = a ∧ nodeKey n = k} k ∧
    IsLeast {k | ∃ n ∈ nodes, n.symbol.id = b ∧ nodeKey n = k} k' ∧
    (toLex (k, a) : Place ×ₗ ℤ) < toLex (k', b)

/-- An instance of the graph shows a selected instance. -/
structure Shows (n : Loaded.SelectionNode) (i : NodeSymbolInstance) : Prop where
  id : i.id = idText n.symbolInstance.id
  symbol : i.symbol = idText n.symbol.id
  object : i.objectId = idText n.object.id
  project : i.projectId = idText n.object.projectId
  symbolType : SymbolType.ofCode n.symbol.symbolType = some i.symbolType
  instanceType : InstanceType.ofCode n.symbolInstance.instanceType = some i.instanceType
  offsets : n.symbolInstance.offsetRange.offsets = some (i.startOffset, i.endOffset)

/-- A reference edge of the graph joins the symbols of a reference edge of the result, at its
place. -/
structure JoinsRef (r : RefEdge) (e : Edge) : Prop where
  source : e.source = r.source.symbolId
  target : e.target = r.target.symbolId
  object : e.fromObject = r.occurrence.map (·.file)
  start : e.fromOffsetStart = r.occurrence.map (·.offsetRange.1)
  stop : e.fromOffsetEnd = r.occurrence.map (·.offsetRange.2)

/-- A containment edge of the graph joins the symbols of one of the result, at its
instances. -/
structure JoinsHas (r : Askl.HasEdge) (e : HasEdge) : Prop where
  parent : e.parent = r.parent
  child : e.child = r.child
  parentInstance : e.parentInstance = idText r.parentInstance
  childInstance : e.childInstance = idText r.childInstance

/-- The symbols of the nodes of a graph. -/
def Graph.ids (g : Graph) : List ℤ := g.nodes.map (·.id)

/-- The graph has one node for each of the first symbols of the result, as many as the limit
allows, with each selected instance of the symbol once and all files listed; its edges are
those of the result that join two of its nodes; and it is marked as truncated when it leaves
a symbol out. -/
structure CappedRight (res : ExecutionResult) (cap : ℕ) (g : Graph) : Prop where
  first : ∃ ranked, RankedSymbols res.nodes ranked ∧ g.totalSymbols = ranked.length ∧
    ∀ id, id ∈ g.ids ↔
      id ∈ ranked.take (if cap = 0 then ranked.length else min cap ranked.length)
  nodup : g.ids.Nodup
  instances : ∀ n ∈ g.nodes, ∃ own, own.Perm (res.nodes.filter fun m => m.symbol.id = n.id) ∧
    List.Forall₂ Shows own n.symbolInstances
  joined : ∀ p ∈ g.joinedPairs, p.1 ∈ g.ids ∧ p.2 ∈ g.ids
  edges : List.Forall₂ JoinsRef
    (res.edges.filter fun r => r.source.symbolId ∈ g.ids ∧ r.target.symbolId ∈ g.ids) g.edges
  hasEdges : List.Forall₂ JoinsHas
    (res.hasEdges.filter fun r => r.parent ∈ g.ids ∧ r.child ∈ g.ids) g.hasEdges
  objects : ∀ n ∈ g.nodes, ∀ i ∈ n.symbolInstances, ∃ o ∈ g.objects, o.objectId = i.objectId
  truncated_iff : g.truncated = true ↔ ∃ n ∈ res.nodes, n.symbol.id ∉ g.ids

/-! ### The order of the symbols -/

section Ranking

variable {nodes : List Loaded.SelectionNode} {id : ℤ}

theorem mem_symKey : id ∈ symKey nodes ↔ ∃ n ∈ nodes, n.symbol.id = id := mem_collect

/-- A symbol holds the least place of its nodes. -/
theorem isLeast_of_lookup_symKey {k : Place} (h : (symKey nodes).lookup id = some k) :
    IsLeast {k | ∃ n ∈ nodes, n.symbol.id = id ∧ nodeKey n = k} k := by
  obtain ⟨⟨n, hn, hid, hkey⟩, hle⟩ :=
    lookup_collect_least (fun n : Loaded.SelectionNode => n.symbol.id) nodeKey (fun k => k) h
  refine ⟨⟨n, hn, hid, hkey⟩, ?_⟩
  rintro _ ⟨m, hm, hmid, rfl⟩
  exact hle m hm hmid

theorem rankedIds_perm (key : AList fun _ : ℤ => Place) : (rankedIds key).Perm key.keys :=
  List.perm_insertionSort _ _

/-- The symbols are sorted by their least places. -/
theorem rankedSymbols_rankedIds : RankedSymbols nodes (rankedIds (symKey nodes)) := by
  have hmem : ∀ id, id ∈ rankedIds (symKey nodes) ↔ id ∈ symKey nodes := fun id => by
    rw [(rankedIds_perm _).mem_iff, AList.mem_keys]
  refine ⟨fun id => (hmem id).trans mem_symKey, ?_⟩
  have hsorted : (rankedIds (symKey nodes)).Pairwise fun a b =>
      rank (symKey nodes) a ≤ rank (symKey nodes) b :=
    List.pairwise_insertionSort _ _
  have hnodup : (rankedIds (symKey nodes)).Nodup :=
    (rankedIds_perm _).nodup_iff.mpr (symKey nodes).keys_nodup
  refine (hsorted.and hnodup).imp_of_mem fun {a b} ha hb hab => ?_
  obtain ⟨k, hk⟩ := Option.isSome_iff_exists.mp (AList.lookup_isSome.mpr ((hmem a).mp ha))
  obtain ⟨k', hk'⟩ := Option.isSome_iff_exists.mp (AList.lookup_isSome.mpr ((hmem b).mp hb))
  refine ⟨k, k', isLeast_of_lookup_symKey hk, isLeast_of_lookup_symKey hk', ?_⟩
  have hle := hab.1
  rw [rank, rank, hk, hk'] at hle
  refine lt_of_le_of_ne hle fun heq => hab.2 ?_
  exact congrArg (fun r => (ofLex r).2) heq

end Ranking

/-! ### The kept symbols -/

/-- The first symbols are kept, as many as the cap allows. -/
theorem mem_selectKept {key : AList fun _ : ℤ => Place} {cap : ℕ} {id : ℤ} :
    id ∈ (selectKept key cap).1 ↔
      id ∈ (rankedIds key).take
        (if cap = 0 then (rankedIds key).length else min cap (rankedIds key).length) := by
  have hlength : (rankedIds key).length = key.keys.length := (rankedIds_perm key).length_eq
  have hall : id ∈ key.keys ↔ id ∈ (rankedIds key).take (rankedIds key).length := by
    rw [List.take_length, (rankedIds_perm key).mem_iff]
  unfold selectKept
  by_cases hcap : cap = 0
  · rw [if_pos (Or.inl hcap), if_pos hcap]
    exact hall
  · rw [if_neg hcap]
    by_cases hle : key.keys.length ≤ cap
    · rw [if_pos (Or.inr hle), Nat.min_eq_right (hlength ▸ hle)]
      exact hall
    · rw [if_neg (not_or.mpr ⟨hcap, hle⟩), Nat.min_eq_left (by omega)]

/-- The result is truncated when there are more symbols than the cap. -/
theorem truncated_selectKept {key : AList fun _ : ℤ => Place} {cap : ℕ} :
    (selectKept key cap).2 = true ↔ ∃ id ∈ key, id ∉ (selectKept key cap).1 := by
  unfold selectKept
  split
  · simp [AList.mem_keys]
  · next hcap =>
    refine iff_of_true rfl ?_
    -- more symbols than are kept: some symbol is not
    by_contra hnone
    have hsub : key.keys ⊆ (rankedIds key).take cap := fun id hid => by
      by_contra hnot
      exact hnone ⟨id, AList.mem_keys.mpr hid, hnot⟩
    have hle := (List.subperm_of_subset key.keys_nodup hsub).length_le
    rw [List.length_take] at hle
    omega

/-! ### The nodes -/

section Nodes

variable {nodes : List Loaded.SelectionNode} {symbol : Symbol}

theorem exists_of_mem_allSymbols (h : symbol ∈ allSymbols nodes) :
    ∃ n ∈ nodes, n.symbol = symbol :=
  List.mem_map.mp (List.mem_dedup.mp h)

/-- The rows of a symbol are the nodes that have it. -/
theorem mem_ownNodes (hrows : RowsAgree nodes) (hsymbol : symbol ∈ allSymbols nodes)
    {n : Loaded.SelectionNode} : n ∈ ownNodes nodes symbol ↔ n ∈ nodes ∧ n.symbol = symbol := by
  obtain ⟨m, hm, rfl⟩ := exists_of_mem_allSymbols hsymbol
  rw [ownNodes, List.mem_filter, beq_iff_eq]
  refine and_congr_right fun hn => ?_
  rw [hrows.joined n hn]
  exact ⟨hrows.symbol_eq n hn m hm, fun heq => heq ▸ rfl⟩

theorem ownNodes_eq (hrows : RowsAgree nodes) :
    ownNodes nodes symbol = nodes.filter fun n => n.symbol.id = symbol.id := by
  refine List.filter_congr fun n hn => ?_
  rw [hrows.joined n hn]
  rfl

/-- The symbols are told apart by their ids. -/
theorem allSymbols_inj (hrows : RowsAgree nodes) {s s' : Symbol} (hs : s ∈ allSymbols nodes)
    (hs' : s' ∈ allSymbols nodes) (h : s.id = s'.id) : s = s' := by
  obtain ⟨n, hn, rfl⟩ := exists_of_mem_allSymbols hs
  obtain ⟨n', hn', rfl⟩ := exists_of_mem_allSymbols hs'
  exact hrows.symbol_eq n hn n' hn' h

/-- There are as many symbols as places of symbols. -/
theorem length_allSymbols (hrows : RowsAgree nodes) :
    (allSymbols nodes).length = (rankedIds (symKey nodes)).length := by
  have hnodup : ((allSymbols nodes).map (·.id)).Nodup :=
    (List.nodup_dedup _).map_on fun s hs s' hs' h => allSymbols_inj hrows hs hs' h
  have hperm : ((allSymbols nodes).map (·.id)).Perm (symKey nodes).keys := by
    rw [List.perm_ext_iff_of_nodup hnodup (symKey nodes).keys_nodup]
    intro id
    rw [← AList.mem_keys, mem_symKey, List.mem_map]
    constructor
    · rintro ⟨s, hs, rfl⟩
      obtain ⟨n, hn, rfl⟩ := exists_of_mem_allSymbols hs
      exact ⟨n, hn, rfl⟩
    · rintro ⟨n, hn, rfl⟩
      exact ⟨n.symbol, List.mem_dedup.mpr (List.mem_map_of_mem hn), rfl⟩
  rw [(rankedIds_perm _).length_eq, ← hperm.length_eq, List.length_map]

/-- An instance of a graph's node shows its row. -/
theorem shows_of_nodeInstance {n : Loaded.SelectionNode} {i : NodeSymbolInstance}
    (hjoined : n.symbolInstance.symbol = n.symbol.id) (h : nodeInstance n.symbol n = .ok i) :
    Shows n i := by
  unfold nodeInstance at h
  split at h
  · cases h
  · next hoffsets =>
    split at h
    · next hsymbol hinstance =>
      obtain rfl := Except.ok.inj h
      exact ⟨rfl, congrArg idText hjoined, rfl, rfl, hsymbol, hinstance, hoffsets⟩
    · cases h

theorem exists_nodeInstance {n : Loaded.SelectionNode}
    (hbounded : n.symbolInstance.offsetRange.offsets.isSome = true) (htyped : n.Typed) :
    ∃ i, nodeInstance n.symbol n = .ok i := by
  obtain ⟨offsets, hoffsets⟩ := Option.isSome_iff_exists.mp hbounded
  obtain ⟨symbolType, hsymbol⟩ := Option.isSome_iff_exists.mp htyped.1
  obtain ⟨instanceType, hinstance⟩ := Option.isSome_iff_exists.mp htyped.2
  unfold nodeInstance
  rw [hoffsets, hsymbol, hinstance]
  exact ⟨_, rfl⟩

/-- A symbol of the result has a node, with an instance for each row of the symbol. -/
theorem exists_graphNode (hrows : RowsAgree nodes) (hsymbol : symbol ∈ allSymbols nodes) :
    ∃ node, graphNode nodes symbol = .ok node := by
  obtain ⟨instances, h⟩ := Fallible.exists_mapM (f := nodeInstance symbol)
      (l := ownNodes nodes symbol) fun n hn => by
    obtain ⟨hmem, rfl⟩ := (mem_ownNodes hrows hsymbol).mp hn
    exact exists_nodeInstance (hrows.bounded n hmem) (hrows.typed n hmem)
  exact ⟨_, Fallible.map_eq_ok.mpr ⟨instances, h, rfl⟩⟩

theorem of_graphNode (hrows : RowsAgree nodes) (hsymbol : symbol ∈ allSymbols nodes) {node : Node}
    (h : graphNode nodes symbol = .ok node) : node.id = symbol.id ∧
      List.Forall₂ Shows (ownNodes nodes symbol) node.symbolInstances := by
  obtain ⟨instances, hinstances, rfl⟩ := Fallible.map_eq_ok.mp h
  have hown : ∀ n ∈ ownNodes nodes symbol, n ∈ nodes ∧ n.symbol = symbol :=
    fun n hn => (mem_ownNodes hrows hsymbol).mp hn
  refine ⟨rfl, ((List.forall₂_and_left _ _).mpr
    ⟨hown, Fallible.mapM_eq_ok.mp hinstances⟩).imp ?_⟩
  rintro n i ⟨⟨hn, rfl⟩, hi⟩
  exact shows_of_nodeInstance (hrows.joined n hn) hi

end Nodes

/-! ### The graph -/

section Graph

variable {res : ExecutionResult} {symbols : List Symbol} {nodes : List Node}

/-- The nodes of the graph are those of the symbols, one for each. -/
theorem of_mapM_graphNode (hsymbols : symbols ⊆ allSymbols res.nodes)
    (h : symbols.mapM (graphNode res.nodes) = .ok nodes) :
    nodes.map (·.id) = symbols.map (·.id) ∧ ∀ n ∈ nodes, ∃ s ∈ symbols, n.id = s.id ∧
      List.Forall₂ Shows (ownNodes res.nodes s) n.symbolInstances := by
  constructor
  · have hids : List.Forall₂ Eq (symbols.map (·.id)) (nodes.map (·.id)) := by
      rw [List.forall₂_map_left_iff, List.forall₂_map_right_iff]
      refine ((List.forall₂_and_left _ _).mpr ⟨hsymbols, Fallible.mapM_eq_ok.mp h⟩).imp ?_
      exact fun s n hsn => (of_graphNode res.rows hsn.1 hsn.2).1.symm
    rw [List.forall₂_eq_eq_eq] at hids
    exact hids.symm
  · intro n hn
    obtain ⟨s, hs, hgraph⟩ := Fallible.exists_of_mem_mapM h hn
    exact ⟨s, hs, of_graphNode res.rows (hsymbols hs) hgraph⟩

/-- The file of a row of the symbols is listed. -/
theorem exists_resultObjects (order : HashOrder) {n : Loaded.SelectionNode}
    (hn : n ∈ symbols.flatMap (ownNodes res.nodes)) :
    ∃ o ∈ order.iter (values (resultObjects res.nodes symbols)), o.objectId = idText n.object.id := by
  have hmem : n.object.id ∈ resultObjects res.nodes symbols := mem_collect.mpr ⟨n, hn, rfl⟩
  obtain ⟨o, ho⟩ := Option.isSome_iff_exists.mp (AList.lookup_isSome.mpr hmem)
  let P (o : GraphObjectEntry) : Prop := o.objectId = idText n.object.id
  have hP : P o := lookup_collect_induction (fun m _ hid => congrArg idText hid)
    (fun _ hold _ _ _ => hold) ho
  exact ⟨o, (order.perm _).mem_iff.mpr (mem_values.mpr ⟨_, ho⟩), hP⟩

theorem joinsRef_keptEdges (kept : List ℤ) (projects : AList fun _ : ℤ => ℤ) (edges : List RefEdge) :
    List.Forall₂ JoinsRef
      (edges.filter fun r => r.source.symbolId ∈ kept ∧ r.target.symbolId ∈ kept)
      (keptEdges kept projects edges) := by
  have hfilter : (edges.filter fun e =>
      kept.contains e.source.symbolId && kept.contains e.target.symbolId) =
        edges.filter fun r => r.source.symbolId ∈ kept ∧ r.target.symbolId ∈ kept :=
    List.filter_congr fun e _ => by simp
  rw [keptEdges, hfilter, List.forall₂_map_right_iff, List.forall₂_same]
  exact fun e _ => ⟨rfl, rfl, rfl, rfl, rfl⟩

theorem joinsHas_keptHasEdges (kept : List ℤ) (edges : List Askl.HasEdge) :
    List.Forall₂ JoinsHas (edges.filter fun r => r.parent ∈ kept ∧ r.child ∈ kept)
      (keptHasEdges kept edges) := by
  have hfilter : (edges.filter fun e => kept.contains e.parent && kept.contains e.child) =
      edges.filter fun r => r.parent ∈ kept ∧ r.child ∈ kept :=
    List.filter_congr fun e _ => by simp
  rw [keptHasEdges, hfilter, List.forall₂_map_right_iff, List.forall₂_same]
  exact fun e _ => ⟨rfl, rfl, rfl, rfl⟩

/-- The symbols a response shows: those that are kept, each once. -/
theorem keptSymbols (order : HashOrder) (res : ExecutionResult) {kept : List ℤ}
    (hkept : ∀ id ∈ kept, id ∈ symKey res.nodes) {symbols : List Symbol}
    (hsymbols : symbols = (order.iter (allSymbols res.nodes)).filter
      fun s => kept.contains s.id) :
    symbols ⊆ allSymbols res.nodes ∧ (symbols.map (·.id)).Nodup ∧
      ∀ id, id ∈ symbols.map (·.id) ↔ id ∈ kept := by
  have hperm := order.perm (allSymbols res.nodes)
  subst hsymbols
  have hsub : (order.iter (allSymbols res.nodes)).filter (fun s => kept.contains s.id) ⊆
      allSymbols res.nodes := fun s hs => hperm.mem_iff.mp (List.mem_filter.mp hs).1
  refine ⟨hsub, ?_, fun id => ?_⟩
  · refine List.Nodup.map_on (fun s hs s' hs' h => ?_) ?_
    · exact allSymbols_inj res.rows (hsub hs) (hsub hs') h
    · exact (hperm.nodup_iff.mpr (List.nodup_dedup _)).filter _
  · rw [List.mem_map]
    constructor
    · rintro ⟨s, hs, rfl⟩
      exact List.contains_iff_mem.mp (List.mem_filter.mp hs).2
    · intro hid
      obtain ⟨n, hn, rfl⟩ := mem_symKey.mp (hkept id hid)
      refine ⟨n.symbol, List.mem_filter.mpr ⟨?_, List.contains_iff_mem.mpr hid⟩, rfl⟩
      exact hperm.mem_iff.mpr (List.mem_dedup.mpr (List.mem_map_of_mem hn))

/-- Edges that are those of a result between some symbols join these symbols. -/
theorem mem_of_joinedPairs {res : ExecutionResult} {g : Graph} {ids : List ℤ}
    (hedges : List.Forall₂ JoinsRef
      (res.edges.filter fun r => r.source.symbolId ∈ ids ∧ r.target.symbolId ∈ ids) g.edges)
    (hhasEdges : List.Forall₂ JoinsHas
      (res.hasEdges.filter fun r => r.parent ∈ ids ∧ r.child ∈ ids) g.hasEdges) {p : ℤ × ℤ}
    (hp : p ∈ g.joinedPairs) : p.1 ∈ ids ∧ p.2 ∈ ids := by
  rcases List.mem_append.mp hp with hp | hp
  · obtain ⟨e, he, rfl⟩ := List.mem_map.mp hp
    obtain ⟨r, hr, hjoins⟩ := Fallible.exists_of_forall₂ hedges he
    have hboth := of_decide_eq_true (List.mem_filter.mp hr).2
    rwa [← hjoins.source, ← hjoins.target] at hboth
  · obtain ⟨e, he, rfl⟩ := List.mem_map.mp hp
    obtain ⟨r, hr, hjoins⟩ := Fallible.exists_of_forall₂ hhasEdges he
    have hboth := of_decide_eq_true (List.mem_filter.mp hr).2
    rwa [← hjoins.parent, ← hjoins.child] at hboth

end Graph

/-! ### The claim -/

/-- **The graph is right for every result and every limit.** -/
theorem cappedRight (order : HashOrder) (limit : Option ℕ) (maxResultSymbols : ℕ)
    (res : ExecutionResult) : ∃ g, buildGraph order limit maxResultSymbols res = .ok g ∧
      CappedRight res (limit.getD maxResultSymbols) g := by
  set cap := limit.getD maxResultSymbols with hcap
  set kept := selectKept (symKey res.nodes) cap with hkeptdef
  have hranked : RankedSymbols res.nodes (rankedIds (symKey res.nodes)) := rankedSymbols_rankedIds
  have hkept : ∀ id ∈ kept.1, id ∈ symKey res.nodes := fun id hid => by
    have hid := List.mem_of_mem_take (mem_selectKept.mp hid)
    exact mem_symKey.mpr ((hranked.mem_iff id).mp hid)
  obtain ⟨hsub, hnodup, hids⟩ := keptSymbols order res hkept rfl
  set symbols := (order.iter (allSymbols res.nodes)).filter fun s => kept.1.contains s.id
  obtain ⟨nodes, hnodes⟩ : ∃ nodes, symbols.mapM (graphNode res.nodes) = .ok nodes :=
    Fallible.exists_mapM fun s hs => exists_graphNode res.rows (hsub hs)
  obtain ⟨hgraph, hshown⟩ := of_mapM_graphNode hsub hnodes
  refine ⟨_, Fallible.map_eq_ok.mpr ⟨nodes, hnodes, rfl⟩, ?_⟩
  have hmem : ∀ id, id ∈ nodes.map (·.id) ↔ id ∈ kept.1 := fun id => by rw [hgraph, hids]
  have hedges := joinsRef_keptEdges kept.1 (objectProjects res.nodes) res.edges
  have hhasEdges := joinsHas_keptHasEdges kept.1 res.hasEdges
  simp only [← hmem] at hedges hhasEdges
  refine {
    first := ⟨_, hranked, length_allSymbols res.rows, fun id => (hmem id).trans mem_selectKept⟩
    nodup := ?_
    instances := fun n hn => ?_
    joined := fun p hp => mem_of_joinedPairs hedges hhasEdges hp
    edges := hedges
    hasEdges := hhasEdges
    objects := fun n hn i hi => ?_
    truncated_iff := ?_ }
  · show (nodes.map (·.id)).Nodup
    rw [hgraph]
    exact hnodup
  · obtain ⟨s, -, hid, hinstances⟩ := hshown n hn
    rw [ownNodes_eq res.rows, ← hid] at hinstances
    exact ⟨_, .refl _, hinstances⟩
  · obtain ⟨s, hs, -, hinstances⟩ := hshown n hn
    obtain ⟨m, hm, hshows⟩ := Fallible.exists_of_forall₂ hinstances hi
    obtain ⟨o, ho, hobject⟩ := exists_resultObjects order (List.mem_flatMap.mpr ⟨s, hs, hm⟩)
    exact ⟨o, ho, hobject.trans hshows.object.symm⟩
  · refine truncated_selectKept.trans ⟨?_, ?_⟩
    · rintro ⟨id, hid, hnot⟩
      obtain ⟨n, hn, rfl⟩ := mem_symKey.mp hid
      exact ⟨n, hn, fun hin => hnot ((hmem _).mp hin)⟩
    · rintro ⟨n, hn, hnot⟩
      exact ⟨n.symbol.id, mem_symKey.mpr ⟨n, hn, rfl⟩, fun hin => hnot ((hmem _).mpr hin)⟩

/-- The graph of a response is one whose edges join its nodes, each of which has an instance. -/
def CappedRight.resultGraph {res : ExecutionResult} {cap : ℕ} {g : Graph}
    (h : CappedRight res cap g) : ResultGraph where
  graph := g
  ids_nodup := h.nodup
  joined := h.joined
  instances_ne_nil n hn := by
    obtain ⟨ranked, hranked, -, hfirst⟩ := h.first
    have hid := (hfirst n.id).mp (List.mem_map_of_mem hn)
    obtain ⟨m, hm, hsymbol⟩ := (hranked.mem_iff n.id).mp (List.mem_of_mem_take hid)
    obtain ⟨own, hperm, hshows⟩ := h.instances n hn
    intro hnil
    rw [hnil, List.forall₂_nil_right_iff] at hshows
    subst hshows
    have hmem : m ∈ res.nodes.filter fun m => m.symbol.id = n.id :=
      List.mem_filter.mpr ⟨hm, decide_eq_true hsymbol⟩
    rw [← hperm.mem_iff] at hmem
    cases hmem

end Askl.Api
