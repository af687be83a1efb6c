import Askl.Api.ExecutionResults
import Askl.Index.Edges
import Askl.Query.SelectedRows
import Mathlib.Algebra.Group.Int.Defs

/-!
# Results of runs

The selections a run ends with are rows of the index.  The driver reads the ranges of the rows
as bounds of 32-bit integers; what it reads is what a result is put together from, and the
collection of the result panics at none of it.

## Main definitions

* `readRange` — a range as the driver reads it.
* `Selection.read`, `finalStatements` — a selection in memory, and the statements of a run.
* `databaseIndex` — the references the index has between instances.
* `Database.Readable`, `Database.SpansFit` — the rows can be read, of kinds there are, and
  the ranges of instances are not too long.

## Main results

* `exists_finalStatements` — the statements of a run can be read.
* `StoredSelections.rowsAgree`, `StoredSelections.range_eq` — they hold rows of keyed tables.
* `exists_execute_of_run` — **every run over readable rows ends in a result with the right
  edges.**
-/

namespace Askl

open Entries Fallible Relation

/-! ### Reading rows -/

/-- What the driver fails with: a range without bounds, or with bounds that are no 32-bit
integers. -/
inductive DecodeError where
  | range
  deriving DecidableEq, Repr

/-- A range as the driver reads it. -/
def readRange : Int4range → Except DecodeError OffsetRange
  | .empty => .error .range
  | .bounded lower upper h =>
    if hfits : -2 ^ 31 ≤ lower ∧ upper < 2 ^ 31 then
      .ok (.between lower upper hfits.1 h.le hfits.2)
    else .error .range

/-- An instance as it is read. -/
def SymbolInstance.read (i : SymbolInstance) : Except DecodeError Loaded.SymbolInstance :=
  (readRange i.offsetRange).map fun range => ⟨i.id, i.symbol, i.objectId, range, i.instanceType⟩

/-- A reference as it is read. -/
def SymbolRef.read (r : SymbolRef) : Except DecodeError Loaded.SymbolRef :=
  (readRange r.fromOffsetRange).map fun range => ⟨r.id, r.toSymbol, range⟩

/-- A selected node; no statement has been entered in it. -/
def CurrentRow.read (n : SelectionNode) : Except DecodeError Loaded.SelectionNode :=
  n.symbolInstance.read.map fun symbolInstance => ⟨n.symbol, symbolInstance, n.object, []⟩

/-- A reference to a selected symbol. -/
def ParentReference.read (r : ParentReference) : Except DecodeError Loaded.ParentReference := do
  let toInstance ← r.toInstance.read
  let fromInstance ← r.fromInstance.read
  let symbolRef ← r.symbolRef.read
  return ⟨r.toSymbol, toInstance, fromInstance, symbolRef⟩

/-- A reference from a selected instance. -/
def ChildReference.read (r : ChildReference) : Except DecodeError Loaded.ChildReference := do
  let symbolInstance ← r.symbolInstance.read
  let fromInstance ← r.fromInstance.read
  let symbolRef ← r.symbolRef.read
  return ⟨r.parentSymbol, symbolInstance, fromInstance, symbolRef, r.fromObject⟩

/-- What contains a selected instance. -/
def HasParentReference.read (h : HasParentReference) :
    Except DecodeError Loaded.HasParentReference := do
  let childInstance ← h.childInstance.read
  let parentInstance ← h.parentInstance.read
  return ⟨h.childSymbol, childInstance, h.parentSymbol, parentInstance⟩

/-- What a selected instance contains. -/
def HasChildReference.read (h : HasChildReference) :
    Except DecodeError Loaded.HasChildReference := do
  let parentInstance ← h.parentInstance.read
  let childInstance ← h.childInstance.read
  return ⟨h.parentSymbol, parentInstance, h.childSymbol, childInstance⟩

/-- A selection in memory. -/
def Selection.read (s : Selection) : Except DecodeError Loaded.Selection := do
  let nodes ← s.nodes.mapM CurrentRow.read
  let parents ← s.parents.mapM ParentReference.read
  let children ← s.children.mapM ChildReference.read
  let hasParents ← s.hasParents.mapM HasParentReference.read
  let hasChildren ← s.hasChildren.mapM HasChildReference.read
  return ⟨nodes, parents, children, hasParents, hasChildren⟩

/-- An edge between instances. -/
def ImplicitEdge.read (e : ImplicitEdge) : Except DecodeError Loaded.ImplicitEdge :=
  (readRange e.fromOffsetRange).map fun range =>
    ⟨e.toSymbol, e.fromObject, range, e.toInstanceId, e.fromInstanceId⟩

/-! ### The end of a run -/

section Statements

variable {n : ℕ} (t : StatementTree n) (ctx : ExecutionContext n)
  (span : Fin n → QueryStatementRange)

/-- A statement with the selection it has ended with. -/
def finalStatement (i : Fin n) : Except DecodeError Loaded.Statement :=
  match getSelection t ctx i with
  | none => .ok ⟨span i, none⟩
  | some s => s.read.map fun selection => ⟨span i, some selection⟩

/-- The statements of a query, in the order they are visited in. -/
def finalStatements : Except DecodeError (List Loaded.Statement) :=
  (List.finRange n).mapM (finalStatement t ctx span)

end Statements

/-- The references the index has between instances: those of `find_edges_between`, unless it
fails or a row cannot be read. -/
def databaseIndex (db : Database) (eph : EphContext) : EdgeIndex := fun instanceIds =>
  match findEdgesBetween db instanceIds eph with
  | .error _ => none
  | .ok rows => (rows.mapM ImplicitEdge.read).toOption

/-- Every range of the tables can be read, and the columns of the kinds refer to the tables of
kinds. -/
structure Database.Readable (db : Database) : Prop where
  instances : ∀ i ∈ db.symbolInstances, ∃ range, readRange i.offsetRange = .ok range
  refs : ∀ r ∈ db.symbolRefs, ∃ range, readRange r.fromOffsetRange = .ok range
  symbolTypes : ∀ s ∈ db.symbols, (Api.SymbolType.ofCode s.symbolType).isSome = true
  instanceTypes : ∀ i ∈ db.symbolInstances,
    (Api.InstanceType.ofCode i.instanceType).isSome = true

/-! ### What is read -/

/-- A range that has been read has two bounds. -/
theorem offsets_of_readRange {r : Int4range} {range : OffsetRange} (h : readRange r = .ok range) :
    range.offsets.isSome = true := by
  unfold readRange at h
  split at h
  · cases h
  · split at h
    · obtain rfl := Except.ok.inj h
      rfl
    · cases h

theorem SymbolInstance.offsets_of_read {i : SymbolInstance} {l : Loaded.SymbolInstance}
    (h : i.read = .ok l) : l.offsetRange.offsets.isSome = true := by
  obtain ⟨range, hrange, rfl⟩ := map_eq_ok.mp h
  exact offsets_of_readRange hrange

theorem SymbolInstance.id_of_read {i : SymbolInstance} {l : Loaded.SymbolInstance}
    (h : i.read = .ok l) : l.id = i.id := by
  obtain ⟨range, -, rfl⟩ := map_eq_ok.mp h
  rfl

theorem SymbolRef.offsets_of_read {r : SymbolRef} {l : Loaded.SymbolRef} (h : r.read = .ok l) :
    l.fromOffsetRange.offsets.isSome = true := by
  obtain ⟨range, hrange, rfl⟩ := map_eq_ok.mp h
  exact offsets_of_readRange hrange

/-- The lists of a selection are read one by one. -/
theorem Selection.read_eq_ok {s : Selection} {l : Loaded.Selection} (h : s.read = .ok l) :
    s.nodes.mapM CurrentRow.read = .ok l.nodes ∧
      s.parents.mapM ParentReference.read = .ok l.parents ∧
      s.children.mapM ChildReference.read = .ok l.children ∧
      s.hasParents.mapM HasParentReference.read = .ok l.hasParents ∧
      s.hasChildren.mapM HasChildReference.read = .ok l.hasChildren := by
  obtain ⟨nodes, hnodes, h⟩ := bind_eq_ok.mp h
  obtain ⟨parents, hparents, h⟩ := bind_eq_ok.mp h
  obtain ⟨children, hchildren, h⟩ := bind_eq_ok.mp h
  obtain ⟨hasParents, hhasParents, h⟩ := bind_eq_ok.mp h
  obtain ⟨hasChildren, hhasChildren, h⟩ := bind_eq_ok.mp h
  obtain rfl := pure_eq_ok.mp h
  exact ⟨hnodes, hparents, hchildren, hhasParents, hhasChildren⟩

/-- A selection of a finished statement is that of the statement, read. -/
theorem exists_of_mem_selections {n : ℕ} {t : StatementTree n} {ctx : ExecutionContext n}
    {span : Fin n → QueryStatementRange} {statements : List Loaded.Statement}
    (h : finalStatements t ctx span = .ok statements) {l : Loaded.Selection}
    (hl : l ∈ selections statements) :
    ∃ i s, getSelection t ctx i = some s ∧ s.read = .ok l := by
  obtain ⟨statement, hstatement, hsome⟩ := List.mem_filterMap.mp hl
  obtain ⟨i, -, hi⟩ := exists_of_mem_mapM h hstatement
  unfold finalStatement at hi
  split at hi
  · obtain rfl := Except.ok.inj hi
    cases hsome
  · next s hs =>
    obtain ⟨l', hread, rfl⟩ := map_eq_ok.mp hi
    obtain rfl := Option.some.inj hsome
    exact ⟨i, s, hs, hread⟩

/-! ### Readable rows are read -/

section Readable

variable {db : Database} (hdb : db.Readable)

include hdb

theorem Database.Readable.exists_instance {i : SymbolInstance} (hi : i ∈ db.symbolInstances) :
    ∃ l, i.read = .ok l := by
  obtain ⟨range, hrange⟩ := hdb.instances i hi
  exact ⟨_, map_eq_ok.mpr ⟨range, hrange, rfl⟩⟩

theorem Database.Readable.exists_ref {r : SymbolRef} (hr : r ∈ db.symbolRefs) :
    ∃ l, r.read = .ok l := by
  obtain ⟨range, hrange⟩ := hdb.refs r hr
  exact ⟨_, map_eq_ok.mpr ⟨range, hrange, rfl⟩⟩

/-- A fabricated reference has the range of an instance. -/
theorem ParentReference.Stored.exists_read {r : ParentReference} (h : r.Stored db) :
    ∃ l, r.read = .ok l := by
  obtain ⟨toInstance, hto⟩ := hdb.exists_instance h.toInstance
  obtain ⟨fromInstance, hfrom⟩ := hdb.exists_instance h.fromInstance
  have href : ∃ l, r.symbolRef.read = .ok l := by
    rcases h.symbolRef with hstored | hplace
    · exact hdb.exists_ref hstored
    · obtain ⟨range, hrange⟩ := hdb.instances _ h.fromInstance
      exact ⟨_, map_eq_ok.mpr ⟨range, hplace ▸ hrange, rfl⟩⟩
  obtain ⟨symbolRef, href⟩ := href
  exact ⟨_, bind_eq_ok.mpr ⟨_, hto, bind_eq_ok.mpr ⟨_, hfrom, bind_eq_ok.mpr ⟨_, href, rfl⟩⟩⟩⟩

theorem ChildReference.Stored.exists_read {r : ChildReference} (h : r.Stored db) :
    ∃ l, r.read = .ok l := by
  obtain ⟨symbolInstance, hinstance⟩ := hdb.exists_instance h.symbolInstance
  obtain ⟨fromInstance, hfrom⟩ := hdb.exists_instance h.fromInstance
  obtain ⟨symbolRef, href⟩ := hdb.exists_ref h.symbolRef
  exact ⟨_, bind_eq_ok.mpr ⟨_, hinstance,
    bind_eq_ok.mpr ⟨_, hfrom, bind_eq_ok.mpr ⟨_, href, rfl⟩⟩⟩⟩

/-- A stored selection is read. -/
theorem Selection.Stored.exists_read {s : Selection} (h : s.Stored db) :
    ∃ l, s.read = .ok l := by
  obtain ⟨nodes, hnodes⟩ := exists_mapM (f := CurrentRow.read) (l := s.nodes) fun a ha => by
    obtain ⟨i, hi⟩ := hdb.exists_instance ((mem_currentRows db).mp (h.nodes a ha)).2.1
    exact ⟨_, map_eq_ok.mpr ⟨i, hi, rfl⟩⟩
  obtain ⟨parents, hparents⟩ := exists_mapM fun r hr => (h.parents r hr).exists_read hdb
  obtain ⟨children, hchildren⟩ := exists_mapM fun r hr => (h.children r hr).exists_read hdb
  obtain ⟨hasParents, hhasParents⟩ := exists_mapM (f := HasParentReference.read)
      (l := s.hasParents) fun r hr => by
    obtain ⟨child, hchild⟩ := hdb.exists_instance (h.hasParents r hr).1
    obtain ⟨parent, hparent⟩ := hdb.exists_instance (h.hasParents r hr).2
    exact ⟨_, bind_eq_ok.mpr ⟨_, hchild, bind_eq_ok.mpr ⟨_, hparent, rfl⟩⟩⟩
  obtain ⟨hasChildren, hhasChildren⟩ := exists_mapM (f := HasChildReference.read)
      (l := s.hasChildren) fun r hr => by
    obtain ⟨parent, hparent⟩ := hdb.exists_instance (h.hasChildren r hr).1
    obtain ⟨child, hchild⟩ := hdb.exists_instance (h.hasChildren r hr).2
    exact ⟨_, bind_eq_ok.mpr ⟨_, hparent, bind_eq_ok.mpr ⟨_, hchild, rfl⟩⟩⟩
  exact ⟨_, bind_eq_ok.mpr ⟨_, hnodes, bind_eq_ok.mpr ⟨_, hparents, bind_eq_ok.mpr ⟨_, hchildren,
    bind_eq_ok.mpr ⟨_, hhasParents, bind_eq_ok.mpr ⟨_, hhasChildren, rfl⟩⟩⟩⟩⟩⟩

end Readable

/-! ### What the statements hold -/

namespace StoredSelections

variable {n : ℕ} {db : Database} {t : StatementTree n} {ctx : ExecutionContext n}
  {span : Fin n → QueryStatementRange} {statements : List Loaded.Statement}

/-- The statements of a run can be read. -/
theorem exists_finalStatements (h : StoredSelections db t ctx) (hdb : db.Readable)
    (span : Fin n → QueryStatementRange) :
    ∃ statements, finalStatements t ctx span = .ok statements := by
  refine exists_mapM fun i _ => ?_
  unfold finalStatement
  split
  · exact ⟨_, rfl⟩
  · next s hs =>
    obtain ⟨l, hl⟩ := (h.getSelection hs).exists_read hdb
    exact ⟨_, map_eq_ok.mpr ⟨l, hl, rfl⟩⟩

/-- The nodes of the statements are joined rows. -/
theorem exists_row (h : StoredSelections db t ctx)
    (hstatements : finalStatements t ctx span = .ok statements) {l : Loaded.SelectionNode}
    (hl : l ∈ finalNodes statements) : ∃ row ∈ currentRows db, row.read = .ok l := by
  obtain ⟨selection, hselection, hl⟩ := List.mem_flatMap.mp hl
  obtain ⟨i, s, hs, hread⟩ := exists_of_mem_selections hstatements hselection
  obtain ⟨row, hrow, hrowread⟩ := exists_of_mem_mapM (Selection.read_eq_ok hread).1 hl
  exact ⟨row, (h.getSelection hs).nodes row hrow, hrowread⟩

/-- They are rows of keyed tables, with bounded ranges and of kinds there are. -/
theorem rowsAgree (h : StoredSelections db t ctx) (hdb : db.Readable)
    (hstatements : finalStatements t ctx span = .ok statements) :
    RowsAgree (finalNodes statements) := by
  refine ⟨fun l hl l' hl' hid => ?_, fun l hl => ?_, fun l hl => ?_, fun l hl => ?_⟩
  all_goals
    obtain ⟨row, hrow, hread⟩ := h.exists_row hstatements hl
    obtain ⟨i, hi, rfl⟩ := map_eq_ok.mp hread
    obtain ⟨hsymbol, hinstance, -, -, hjoin, -⟩ := (mem_currentRows db).mp hrow
  · obtain ⟨row', hrow', hread'⟩ := h.exists_row hstatements hl'
    obtain ⟨i', hi', rfl⟩ := map_eq_ok.mp hread'
    exact db.symbol_eq_of_id hsymbol ((mem_currentRows db).mp hrow').1 hid
  · obtain ⟨range, -, rfl⟩ := map_eq_ok.mp hi
    exact hjoin.symm
  · exact SymbolInstance.offsets_of_read hi
  · obtain ⟨range, -, rfl⟩ := map_eq_ok.mp hi
    exact ⟨hdb.symbolTypes _ hsymbol, hdb.instanceTypes _ hinstance⟩

/-- The parent of a recorded containment is a stored instance. -/
theorem exists_parent (h : StoredSelections db t ctx)
    (hstatements : finalStatements t ctx span = .ok statements) {r : RecordedHas}
    (hr : r ∈ recordedHas statements) :
    ∃ i ∈ db.symbolInstances, i.read = .ok r.parentInst := by
  obtain ⟨selection, hselection, hr⟩ := List.mem_flatMap.mp hr
  obtain ⟨i, s, hs, hread⟩ := exists_of_mem_selections hstatements hselection
  have hstored := h.getSelection hs
  obtain ⟨-, -, -, hhasParents, hhasChildren⟩ := Selection.read_eq_ok hread
  rcases List.mem_append.mp hr with hr | hr
  · obtain ⟨l, hl, rfl⟩ := List.mem_map.mp hr
    obtain ⟨row, hrow, hrowread⟩ := exists_of_mem_mapM hhasChildren hl
    obtain ⟨parent, hparent, hrowread⟩ := bind_eq_ok.mp hrowread
    obtain ⟨child, -, hrowread⟩ := bind_eq_ok.mp hrowread
    obtain rfl := pure_eq_ok.mp hrowread
    exact ⟨_, (hstored.hasChildren row hrow).1, hparent⟩
  · obtain ⟨l, hl, rfl⟩ := List.mem_map.mp hr
    obtain ⟨row, hrow, hrowread⟩ := exists_of_mem_mapM hhasParents hl
    obtain ⟨child, -, hrowread⟩ := bind_eq_ok.mp hrowread
    obtain ⟨parent, hparent, hrowread⟩ := bind_eq_ok.mp hrowread
    obtain rfl := pure_eq_ok.mp hrowread
    exact ⟨_, (hstored.hasParents row hrow).2, hparent⟩

/-- Two containments recorded with the id of one parent are recorded with one range. -/
theorem range_eq (h : StoredSelections db t ctx)
    (hstatements : finalStatements t ctx span = .ok statements) {r r' : RecordedHas}
    (hr : r ∈ recordedHas statements) (hr' : r' ∈ recordedHas statements)
    (hid : r.parentInst.id = r'.parentInst.id) :
    r.parentInst.offsetRange = r'.parentInst.offsetRange := by
  obtain ⟨i, hi, hread⟩ := h.exists_parent hstatements hr
  obtain ⟨i', hi', hread'⟩ := h.exists_parent hstatements hr'
  rw [SymbolInstance.id_of_read hread, SymbolInstance.id_of_read hread'] at hid
  obtain rfl := db.instance_eq_of_id hi hi' hid
  rw [Except.ok.inj (hread.symm.trans hread')]

end StoredSelections

/-- The statements a run ends with, as the containment edges are collected from them. -/
def StoredSelections.finished {n : ℕ} {db : Database} {t : StatementTree n}
    {ctx : ExecutionContext n} {span : Fin n → QueryStatementRange}
    {statements : List Loaded.Statement} (h : StoredSelections db t ctx)
    (hstatements : finalStatements t ctx span = .ok statements) : FinishedStatements where
  statements := statements
  range_eq _ hr _ hr' := h.range_eq hstatements hr hr'

/-! ### Results -/

section Results

variable {n : ℕ} {db : Database} {t : StatementTree n} {ctx : ExecutionContext n}
  {span : Fin n → QueryStatementRange} {statements : List Loaded.Statement}

/-- A recorded reference has a range with two bounds. -/
theorem offsets_of_recordedRef (hstatements : finalStatements t ctx span = .ok statements)
    {c : RefCandidate} (hc : RecordedRef statements c) : c.range.offsets.isSome = true := by
  cases hc with
  | parent hselection hparent =>
    obtain ⟨i, s, -, hread⟩ := exists_of_mem_selections hstatements hselection
    obtain ⟨row, -, hrow⟩ := exists_of_mem_mapM (Selection.read_eq_ok hread).2.1 hparent
    obtain ⟨toInstance, -, hrow⟩ := bind_eq_ok.mp hrow
    obtain ⟨fromInstance, -, hrow⟩ := bind_eq_ok.mp hrow
    obtain ⟨symbolRef, href, hrow⟩ := bind_eq_ok.mp hrow
    obtain rfl := pure_eq_ok.mp hrow
    exact SymbolRef.offsets_of_read href
  | child hselection hchild =>
    obtain ⟨i, s, -, hread⟩ := exists_of_mem_selections hstatements hselection
    obtain ⟨row, -, hrow⟩ := exists_of_mem_mapM (Selection.read_eq_ok hread).2.2.1 hchild
    obtain ⟨symbolInstance, -, hrow⟩ := bind_eq_ok.mp hrow
    obtain ⟨fromInstance, -, hrow⟩ := bind_eq_ok.mp hrow
    obtain ⟨symbolRef, href, hrow⟩ := bind_eq_ok.mp hrow
    obtain rfl := pure_eq_ok.mp hrow
    exact SymbolRef.offsets_of_read href

/-- And so has a reference of the index. -/
theorem offsets_of_databaseIndex {eph : EphContext} {all : List ℤ} {c : RefCandidate}
    (hc : c ∈ implicitRefs (databaseIndex db eph) all statements) :
    c.range.offsets.isSome = true := by
  obtain ⟨edge, hedge, hcandidate⟩ := List.mem_filterMap.mp hc
  obtain ⟨source, -, hcandidate⟩ := Option.bind_eq_some_iff.mp hcandidate
  obtain ⟨target, -, hcandidate⟩ := Option.bind_eq_some_iff.mp hcandidate
  obtain rfl := Option.some.inj hcandidate
  unfold databaseIndex at hedge
  split at hedge
  · cases hedge
  · next rows _ =>
    cases hread : rows.mapM ImplicitEdge.read with
    | error e =>
      rw [hread] at hedge
      cases hedge
    | ok edges =>
      rw [hread] at hedge
      obtain ⟨row, -, hrow⟩ := exists_of_mem_mapM hread hedge
      obtain ⟨range, hrange, rfl⟩ := map_eq_ok.mp hrow
      exact offsets_of_readRange hrange

/-- No stored instance has a range of 2³¹ bytes or more. -/
def Database.SpansFit (db : Database) : Prop :=
  ∀ i ∈ db.symbolInstances, ∀ range, readRange i.offsetRange = .ok range → ¬range.Exceeds

/-- Where the spans of the stored instances fit, those of the recorded parents can be
compared. -/
theorem StoredSelections.spansComparable (h : StoredSelections db t ctx) (hspans : db.SpansFit)
    (hstatements : finalStatements t ctx span = .ok statements) (overflowChecks : Bool) :
    SpansComparable overflowChecks (joinedHas statements) := by
  have hfits : ∀ r ∈ joinedHas statements, ¬r.parentInst.offsetRange.Exceeds := by
    intro r hr
    obtain ⟨i, hi, hread⟩ := h.exists_parent hstatements (List.mem_filter.mp hr).1
    obtain ⟨range, hrange, hparent⟩ := map_eq_ok.mp hread
    rw [← hparent]
    exact hspans i hi range hrange
  unfold SpansComparable
  split
  · exact hfits
  · exact fun _ _ r' hr' _ _ => hfits r' hr'

/-- **Every run over readable rows ends in a result with the right edges**, in whatever order
the hash tables are read. -/
theorem exists_execute_of_run (hdb : db.Readable) (hspans : db.SpansFit) {layers : LayerStore n}
    {roots : List RootLayer} (hroots : computeRoots db t layers roots = .ok ctx)
    {st : WorkState n} (hrun : ReflTransGen (Step db t) (seed t ctx) st)
    (span : Fin n → QueryStatementRange) (overflowChecks : Bool) (order : HashOrder)
    (warnings : List Api.ErrorResponse) :
    ∃ statements, finalStatements t st.ctx span = .ok statements ∧
      ∃ (hrows : RowsAgree (finalNodes statements)) (res : ExecutionResult),
        execute overflowChecks order (databaseIndex db st.ctx.eph) statements hrows warnings =
          .ok res ∧
        RefEdgesRight statements res.edges ∧ HasEdgesRight statements res.hasEdges := by
  have hstored := storedSelections_of_run hroots hrun
  obtain ⟨statements, hstatements⟩ := hstored.exists_finalStatements hdb span
  refine ⟨statements, hstatements, hstored.rowsAgree hdb hstatements, ?_⟩
  obtain ⟨refEdges, hrefs⟩ : ∃ edges, collectRefEdges (databaseIndex db st.ctx.eph) statements
      (allNodes statements) = .ok edges := by
    refine exists_collectRefEdges.mpr fun c hc => ?_
    rcases List.mem_append.mp hc with hc | hc
    · exact offsets_of_recordedRef hstatements (mem_recorded.mp (List.mem_filter.mp hc).1)
    · exact offsets_of_databaseIndex hc
  obtain ⟨hasEdges, hhas, hright⟩ := hasEdgesRight_of_comparable order
    (hstored.spansComparable hspans hstatements overflowChecks)
  refine ⟨_, bind_eq_ok.mpr ⟨refEdges, hrefs, bind_eq_ok.mpr ⟨hasEdges, hhas, rfl⟩⟩, ?_, hright⟩
  exact (refEdgesRight hrefs).perm (order.perm refEdges)

end Results

end Askl
