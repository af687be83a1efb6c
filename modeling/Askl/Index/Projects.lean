import Askl.Index.Containment

/-!
# Queries keep to one project

The joins of the index compare ids, and only the layer columns of a row are checked against the
roots of a query.  Where the rows of the tables are each of one project, so is every row that a
query selects, and no row is lost: of the layers it checks one would do.

## Main definitions

* `Project.Files` — a row in an object, about a symbol, is of a project.
* `Database.Apart` — every row on a root layer is of one project.
* `Project.Owns` — an instance and its symbol are of a project.
* `Project.Holds`, `Project.Joins`, `Project.Nests` — the rows of a query are of a project.
* `QueriesApart` — what the five queries select is of one project, row by row.
* `References`, `Encloses` — a reference and an enclosing instance, without the joins.
* `QueriesExact` — the five queries select these, each of them once.

## Main results

* `Database.Apart.queriesApart` — **a query of root layers selects rows of one project.**
* `Database.Apart.queriesExact` — **such a query loses no row and repeats none.**
-/

namespace Askl

open Keyed

/-- A row in an object, about a symbol, is of a project: it is on the root of the project, and so
are the object and the symbol, which has a type. -/
structure Project.Files (db : Database) (p : Project) (objectId symbol layer : ℤ) : Prop where
  mem : p ∈ db.projects
  root : layer = p.rootLayerId
  object : ∃ o ∈ db.objects, o.id = objectId ∧ o.projectId = p.id ∧ o.layer = p.rootLayerId
  symbol : ∃ y ∈ db.symbols, y.id = symbol ∧ y.projectId = p.id ∧ y.layer = p.rootLayerId ∧
    ∃ t ∈ db.symbolTypes, t.id = y.symbolType

/-- Every instance and every reference on a root layer is of one project. -/
structure Database.Apart (db : Database) : Prop where
  instances : ∀ i ∈ db.symbolInstances, 0 < i.layer →
    ∃ p : Project, p.Files db i.objectId i.symbol i.layer
  refs : ∀ f ∈ db.symbolRefs, 0 < f.layer →
    ∃ p : Project, p.Files db f.fromObject f.toSymbol f.layer

/-- An instance and its symbol are of a project. -/
structure Project.Owns (p : Project) (i : SymbolInstance) (y : Symbol) : Prop where
  root : i.layer = p.rootLayerId
  symbol : y.projectId = p.id
  symbolRoot : y.layer = p.rootLayerId

/-- The level of the type of an instance. -/
def Database.levelOf (db : Database) (i : SymbolInstance) : Option ℤ := do
  let y ← db.symbols.find? fun y => decide (y.id = i.symbol)
  let t ← db.symbolTypes.find? fun t => decide (t.id = y.symbolType)
  pure t.level

variable {db : Database} {vis : VisibilitySpec}

/-! ### Rows of a project -/

namespace Project.Files

variable {p q : Project} {objectId symbol layer : ℤ}

/-- The object that is joined is of the project. -/
theorem of_object (h : p.Files db objectId symbol layer) {o : Object} (ho : o ∈ db.objects)
    (hid : o.id = objectId) : o.projectId = p.id ∧ o.layer = p.rootLayerId := by
  obtain ⟨o', ho', hid', hproject, hlayer⟩ := h.object
  obtain rfl := eq_of_key db.objects_nodup ho ho' (hid.trans hid'.symm)
  exact ⟨hproject, hlayer⟩

/-- The symbol that is joined is of the project. -/
theorem of_symbol (h : p.Files db objectId symbol layer) {y : Symbol} (hy : y ∈ db.symbols)
    (hid : y.id = symbol) : y.projectId = p.id ∧ y.layer = p.rootLayerId := by
  obtain ⟨y', hy', hid', hproject, hlayer, -⟩ := h.symbol
  obtain rfl := db.symbol_eq_of_id hy hy' (hid.trans hid'.symm)
  exact ⟨hproject, hlayer⟩

/-- Rows in one object are of one project. -/
theorem eq_of_object {symbol' layer' : ℤ} (h : p.Files db objectId symbol layer)
    (h' : q.Files db objectId symbol' layer') : q = p := by
  obtain ⟨o, ho, hid, hproject, -⟩ := h.object
  apply eq_of_key db.projects_nodup h'.mem h.mem
  rw [← hproject, (h'.of_object ho hid).1]

/-- Rows about one symbol are of one project. -/
theorem eq_of_symbol {objectId' layer' : ℤ} (h : p.Files db objectId symbol layer)
    (h' : q.Files db objectId' symbol layer') : q = p := by
  obtain ⟨y, hy, hid, hproject, -⟩ := h.symbol
  apply eq_of_key db.projects_nodup h'.mem h.mem
  rw [← hproject, (h'.of_symbol hy hid).1]

theorem owns {i : SymbolInstance} (h : p.Files db i.objectId i.symbol i.layer) {y : Symbol}
    (hy : y ∈ db.symbols) (hid : y.id = i.symbol) : p.Owns i y := by
  obtain ⟨hproject, hlayer⟩ := h.of_symbol hy hid
  exact ⟨h.root, hproject, hlayer⟩

/-- An instance of a project is joined with its symbol and its type. -/
theorem exists_typed {i : SymbolInstance} (hi : i ∈ db.symbolInstances)
    (h : p.Files db i.objectId i.symbol i.layer) :
    ∃ y t, ((i, y), t) ∈ typedInstances db ∧ p.Owns i y := by
  obtain ⟨y, hy, hid, -, -, t, ht, htype⟩ := h.symbol
  refine ⟨y, t, ?_, h.owns hy hid⟩
  rw [mem_typedInstances]
  exact ⟨hi, hy, ht, hid.symm, htype.symm⟩

end Project.Files

/-- The level of an instance is that of the type it is joined with. -/
theorem levelOf_of_typed {x : TypedInstance} (hx : x ∈ typedInstances db) :
    db.levelOf x.1.1 = some x.2.level := by
  obtain ⟨-, hy, ht, hid, htype⟩ := (mem_typedInstances db).mp hx
  have hsymbol := (find?_key_eq_some db.symbols_nodup).mpr ⟨hy, hid.symm⟩
  have htypes := (find?_key_eq_some db.symbolTypes_nodup).mpr ⟨ht, htype.symm⟩
  unfold Database.levelOf
  rw [hsymbol]
  show (db.symbolTypes.find? _).bind _ = _
  rw [htypes]
  rfl

/-! ### What the builders select -/

theorem mem_buildCurrentQuery {r : CurrentRow} : r ∈ (buildCurrentQuery db vis).rows ↔
    r ∈ currentRows db ∧ r.symbol.layer ∈ vis.visible ∧ r.symbolInstance.layer ∈ vis.visible := by
  simp [buildCurrentQuery, and_comm]

theorem mem_buildParentsQuery {ids : List ℤ} {r : ParentsRow} :
    r ∈ (buildParentsQuery db ids vis).rows ↔ r ∈ parentsRows db ∧
      r.parentDecl.offsetRange.contains r.symbolRef.fromOffsetRange = true ∧
      r.symbolInstance.id ∈ ids ∧ r.symbolRef.layer ∈ vis.visible ∧
      r.symbol.layer ∈ vis.visible ∧ r.symbolInstance.layer ∈ vis.visible ∧
      r.parentDecl.layer ∈ vis.visible ∧ r.parentSymbol.layer ∈ vis.visible := by
  simp only [buildParentsQuery, Query.rows_pred, Query.rows_filter, Query.rows_ofRows,
    List.mem_filter, VisibilitySpec.admits_iff, List.contains_iff_mem]
  tauto

/-- A row of the children query is one of the parents query, with the object of the parent. -/
theorem mem_childrenRows {r : ChildrenRow} : r ∈ childrenRows db ↔
    ⟨r.symbolRef, r.symbol, r.symbolInstance, r.parentDecl, r.parentSymbol⟩ ∈ parentsRows db ∧
      r.object ∈ db.objects ∧ r.object.id = r.parentDecl.objectId := by
  simp only [childrenRows, List.mem_map, Prod.exists, mem_join, beq_iff_eq]
  constructor
  · rintro ⟨x, o, ⟨hx, ho, hid⟩, rfl⟩
    exact ⟨hx, ho, hid⟩
  · rintro ⟨hx, ho, hid⟩
    exact ⟨_, r.object, ⟨hx, ho, hid⟩, rfl⟩

theorem mem_buildChildrenQuery {ids : List ℤ} {r : ChildrenRow} :
    r ∈ (buildChildrenQuery db ids vis).rows ↔ r ∈ childrenRows db ∧
      r.parentDecl.offsetRange.contains r.symbolRef.fromOffsetRange = true ∧
      r.parentDecl.id ∈ ids ∧ r.symbolRef.layer ∈ vis.visible ∧
      r.symbol.layer ∈ vis.visible ∧ r.symbolInstance.layer ∈ vis.visible ∧
      r.parentDecl.layer ∈ vis.visible ∧ r.parentSymbol.layer ∈ vis.visible := by
  simp only [buildChildrenQuery, Query.rows_pred, Query.rows_filter, Query.rows_ofRows,
    List.mem_filter, VisibilitySpec.admits_iff, List.contains_iff_mem]
  tauto

theorem mem_buildHasParentsQuery {ids : List ℤ} {r : HasParentsRow} :
    r ∈ (buildHasParentsQuery db ids vis).rows ↔ r ∈ hasParentsRows db ∧
      r.symbolInstance.id ∈ ids ∧
      r.containerInstance.offsetRange.contains r.symbolInstance.offsetRange = true ∧
      r.symbolType.level ≤ r.containerType.level ∧
      r.containerInstance.id ≠ r.symbolInstance.id ∧
      r.symbol.layer ∈ vis.visible ∧ r.symbolInstance.layer ∈ vis.visible ∧
      r.containerSymbol.layer ∈ vis.visible ∧ r.containerInstance.layer ∈ vis.visible := by
  simp only [buildHasParentsQuery, Query.rows_pred, Query.rows_filter, Query.rows_ofRows,
    List.mem_filter, VisibilitySpec.admits_iff, List.contains_iff_mem, decide_eq_true_eq,
    Bool.not_eq_true', beq_eq_false_iff_ne]
  tauto

theorem mem_buildHasChildrenInner {source : HasChildrenRow → Bool} {r : HasChildrenRow} :
    r ∈ (buildHasChildrenInner db vis source).rows ↔ r ∈ hasChildrenRows db ∧ source r = true ∧
      r.symbolInstance.offsetRange.contains r.containedInstance.offsetRange = true ∧
      r.containedType.level ≤ r.symbolType.level ∧
      r.symbolInstance.id ≠ r.containedInstance.id ∧
      r.symbol.layer ∈ vis.visible ∧ r.symbolInstance.layer ∈ vis.visible ∧
      r.containedSymbol.layer ∈ vis.visible ∧ r.containedInstance.layer ∈ vis.visible := by
  simp only [buildHasChildrenInner, Query.rows_pred, Query.rows_filter, Query.rows_ofRows,
    List.mem_filter, VisibilitySpec.admits_iff, decide_eq_true_eq, Bool.not_eq_true',
    beq_eq_false_iff_ne]
  tauto

/-! ### One project -/

/-- An object is of a project. -/
structure Project.Holds (p : Project) (o : Object) : Prop where
  project : o.projectId = p.id
  root : o.layer = p.rootLayerId

/-- A reference, and the two instances it joins, are of a project. -/
structure Project.Joins (db : Database) (p : Project) (f : SymbolRef) (i : SymbolInstance)
    (y : Symbol) (d : SymbolInstance) (z : Symbol) : Prop where
  mem : p ∈ db.projects
  ref : f.layer = p.rootLayerId
  child : p.Owns i y
  parent : p.Owns d z

/-- Two instances, one around the other, are of a project. -/
structure Project.Nests (db : Database) (p : Project) (c : SymbolInstance) (z : Symbol)
    (i : SymbolInstance) (y : Symbol) : Prop where
  mem : p ∈ db.projects
  outer : p.Owns c z
  inner : p.Owns i y

/-- What the five queries select is of one project, row by row, whatever the filters are. -/
structure QueriesApart (db : Database) (vis : VisibilitySpec) : Prop where
  current : ∀ f, ∀ r ∈ (currentQuery db f vis).rows,
    r.project ∈ db.projects ∧ r.project.Owns r.symbolInstance r.symbol ∧
      r.project.Holds r.object
  parents : ∀ f ids scope, ∀ r ∈ (parentsQuery db f ids scope vis).rows, ∃ p : Project,
    p.Joins db r.symbolRef r.symbolInstance r.symbol r.parentDecl r.parentSymbol
  children : ∀ f ids scope, ∀ r ∈ (childrenQuery db f ids scope vis).rows, ∃ p : Project,
    p.Joins db r.symbolRef r.symbolInstance r.symbol r.parentDecl r.parentSymbol ∧
      p.Holds r.object
  hasParents : ∀ f ids, ∀ r ∈ (hasParentsQuery db f ids vis).rows, ∃ p : Project,
    p.Nests db r.containerInstance r.containerSymbol r.symbolInstance r.symbol
  hasChildren : ∀ f ids, ∀ r ∈ (hasChildrenQuery db f ids vis).rows, ∃ p : Project,
    p.Nests db r.symbolInstance r.symbol r.containedInstance r.containedSymbol ∧
      p.Holds r.object
  cteHasChildren : ∀ ids, ∀ r ∈ (cteHasChildrenQuery db ids vis).rows, ∃ p : Project,
    p.Nests db r.symbolInstance r.symbol r.containedInstance r.containedSymbol ∧
      p.Holds r.object

namespace Database.Apart

variable (h : db.Apart) (hvis : ∀ layer ∈ vis.visible, 0 < layer)

include h hvis

theorem files_instance {i : SymbolInstance} (hi : i ∈ db.symbolInstances)
    (hlayer : i.layer ∈ vis.visible) : ∃ p : Project, p.Files db i.objectId i.symbol i.layer :=
  h.instances i hi (hvis _ hlayer)

theorem current_row {r : CurrentRow} (hr : r ∈ (buildCurrentQuery db vis).rows) :
    r.project ∈ db.projects ∧ r.project.Owns r.symbolInstance r.symbol ∧
      r.project.Holds r.object := by
  obtain ⟨hr, -, hlayer⟩ := mem_buildCurrentQuery.mp hr
  obtain ⟨hy, hi, ho, hp, hyi, hyp, hoi⟩ := (mem_currentRows db).mp hr
  obtain ⟨p, hfiles⟩ := h.files_instance hvis hi hlayer
  have howns := hfiles.owns hy hyi
  -- the project is joined by the symbol
  have hproject : r.project = p := by
    apply eq_of_key db.projects_nodup hp hfiles.mem
    rw [← hyp, howns.symbol]
  obtain ⟨hoproject, holayer⟩ := hfiles.of_object ho hoi
  rw [hproject]
  exact ⟨hfiles.mem, howns, hoproject, holayer⟩

/-- The symbol of a reference and the object it is in join both instances to its project. -/
theorem joins_row {r : ParentsRow} (hr : r ∈ parentsRows db)
    (href : r.symbolRef.layer ∈ vis.visible) (hinstance : r.symbolInstance.layer ∈ vis.visible)
    (hparent : r.parentDecl.layer ∈ vis.visible) : ∃ p : Project,
      p.Joins db r.symbolRef r.symbolInstance r.symbol r.parentDecl r.parentSymbol ∧
      p.Files db r.parentDecl.objectId r.parentDecl.symbol r.parentDecl.layer := by
  obtain ⟨hf, hy, hi, hd, hz, hfy, hyi, hdf, hzd⟩ := (mem_parentsRows db).mp hr
  obtain ⟨p, hfiles⟩ := h.refs _ hf (hvis _ href)
  obtain ⟨q, hchild⟩ := h.files_instance hvis hi hinstance
  obtain ⟨q', hdecl⟩ := h.files_instance hvis hd hparent
  have hq : q = p := by
    apply hfiles.eq_of_symbol
    rw [hfy, hyi]
    exact hchild
  have hq' : q' = p := by
    apply hfiles.eq_of_object
    rw [← hdf]
    exact hdecl
  subst hq hq'
  exact ⟨q', ⟨hfiles.mem, hfiles.root, hchild.owns hy hyi, hdecl.owns hz hzd⟩, hdecl⟩

/-- Two typed instances of one object are of one project. -/
theorem nests_typed {x y : TypedInstance} (hx : x ∈ typedInstances db)
    (hy : y ∈ typedInstances db) (hobject : x.1.1.objectId = y.1.1.objectId)
    (hxlayer : x.1.1.layer ∈ vis.visible) (hylayer : y.1.1.layer ∈ vis.visible) :
    ∃ p : Project, p.Nests db x.1.1 x.1.2 y.1.1 y.1.2 ∧
      p.Files db x.1.1.objectId x.1.1.symbol x.1.1.layer := by
  obtain ⟨hxi, hxs, -, hxid, -⟩ := (mem_typedInstances db).mp hx
  obtain ⟨hyi, hys, -, hyid, -⟩ := (mem_typedInstances db).mp hy
  obtain ⟨p, hp⟩ := h.files_instance hvis hxi hxlayer
  obtain ⟨q, hq⟩ := h.files_instance hvis hyi hylayer
  have hpq : q = p := by
    apply hp.eq_of_object
    rw [hobject]
    exact hq
  subst hpq
  exact ⟨q, ⟨hp.mem, hp.owns hxs hxid.symm, hq.owns hys hyid.symm⟩, hp⟩

theorem hasParents_row {ids : List ℤ} {r : HasParentsRow}
    (hr : r ∈ (buildHasParentsQuery db ids vis).rows) : ∃ p : Project,
      p.Nests db r.containerInstance r.containerSymbol r.symbolInstance r.symbol := by
  obtain ⟨hr, -, -, -, -, -, hlayer, -, hcontainer⟩ := mem_buildHasParentsQuery.mp hr
  obtain ⟨x, hx, y, hy, hobject, rfl⟩ := mem_hasParentsRows.mp hr
  obtain ⟨p, hnests, -⟩ := h.nests_typed hvis hx hy hobject hcontainer hlayer
  exact ⟨p, hnests⟩

theorem hasChildren_row {source : HasChildrenRow → Bool} {r : HasChildrenRow}
    (hr : r ∈ (buildHasChildrenInner db vis source).rows) : ∃ p : Project,
      p.Nests db r.symbolInstance r.symbol r.containedInstance r.containedSymbol ∧
        p.Holds r.object := by
  obtain ⟨hr, -, -, -, -, -, hlayer, -, hcontained⟩ := mem_buildHasChildrenInner.mp hr
  obtain ⟨x, hx, y, hy, o, ho, hoid, hobject, rfl⟩ := mem_hasChildrenRows.mp hr
  obtain ⟨p, hnests, hfiles⟩ := h.nests_typed hvis hx hy hobject.symm hlayer hcontained
  obtain ⟨hoproject, holayer⟩ := hfiles.of_object ho hoid
  exact ⟨p, hnests, hoproject, holayer⟩

/-- **A query of root layers selects rows of one project**, whatever it filters by. -/
theorem queriesApart : QueriesApart db vis where
  current f r hr := by
    simp only [currentQuery, Query.rows_guard, Query.rows_filterOpt, List.mem_filter] at hr
    exact h.current_row hvis hr.1.1
  parents f ids scope r hr := by
    simp only [parentsQuery, Query.rows_guard, Query.rows_filterOpt, List.mem_filter] at hr
    obtain ⟨hr, -, -, href, -, hinstance, hparent, -⟩ := mem_buildParentsQuery.mp hr.1.1.1
    obtain ⟨p, hjoins, -⟩ := h.joins_row hvis hr href hinstance hparent
    exact ⟨p, hjoins⟩
  children f ids scope r hr := by
    simp only [childrenQuery, Query.rows_guard, Query.rows_filterOpt, List.mem_filter] at hr
    obtain ⟨hr, -, -, href, -, hinstance, hparent, -⟩ := mem_buildChildrenQuery.mp hr.1.1.1
    obtain ⟨hr, ho, hoid⟩ := mem_childrenRows.mp hr
    obtain ⟨p, hjoins, hfiles⟩ := h.joins_row hvis hr href hinstance hparent
    obtain ⟨hoproject, holayer⟩ := hfiles.of_object ho hoid
    exact ⟨p, hjoins, hoproject, holayer⟩
  hasParents f ids r hr := by
    simp only [hasParentsQuery, Query.rows_guard, Query.rows_filterOpt, List.mem_filter] at hr
    exact h.hasParents_row hvis hr.1.1
  hasChildren f ids r hr := by
    simp only [hasChildrenQuery, Query.rows_guard, Query.rows_filterOpt, List.mem_filter] at hr
    exact h.hasChildren_row hvis hr.1.1
  cteHasChildren ids r hr := by
    simp only [cteHasChildrenQuery, Query.rows_guard, List.mem_filter] at hr
    exact h.hasChildren_row hvis hr.1

end Database.Apart

/-! ### No row is lost -/

/-- A reference on a visible root, an instance of what it refers to, and one around it: all
three on that root. -/
structure References (db : Database) (vis : VisibilitySpec) (f : SymbolRef)
    (i d : SymbolInstance) : Prop where
  ref : f ∈ db.symbolRefs
  visible : f.layer ∈ vis.visible
  target : i ∈ db.symbolInstances
  symbol : i.symbol = f.toSymbol
  targetRoot : i.layer = f.layer
  source : d ∈ db.symbolInstances
  object : d.objectId = f.fromObject
  sourceRoot : d.layer = f.layer
  range : d.offsetRange.contains f.fromOffsetRange = true

/-- An instance on a visible root and one around it, of a type whose level is not lower. -/
structure Encloses (db : Database) (vis : VisibilitySpec) (c i : SymbolInstance) : Prop where
  outer : c ∈ db.symbolInstances
  inner : i ∈ db.symbolInstances
  visible : i.layer ∈ vis.visible
  root : c.layer = i.layer
  object : c.objectId = i.objectId
  range : c.offsetRange.contains i.offsetRange = true
  level : ∀ a ∈ db.levelOf i, ∀ b ∈ db.levelOf c, a ≤ b
  ne : c.id ≠ i.id

/-- The queries select the visible instances, the references with what they join and the
instances that enclose one another, each of them once. -/
structure QueriesExact (db : Database) (vis : VisibilitySpec) : Prop where
  current : ((buildCurrentQuery db vis).rows.map (·.symbolInstance)).Perm
    (db.symbolInstances.filter fun i => vis.admits i.layer)
  parents : ∀ ids f i d, (∃! r, r ∈ (buildParentsQuery db ids vis).rows ∧ r.symbolRef = f ∧
    r.symbolInstance = i ∧ r.parentDecl = d) ↔ i.id ∈ ids ∧ References db vis f i d
  children : ∀ ids f i d, (∃! r, r ∈ (buildChildrenQuery db ids vis).rows ∧ r.symbolRef = f ∧
    r.symbolInstance = i ∧ r.parentDecl = d) ↔ d.id ∈ ids ∧ References db vis f i d
  hasParents : ∀ ids c i, (∃! r, r ∈ (buildHasParentsQuery db ids vis).rows ∧
    r.symbolInstance = i ∧ r.containerInstance = c) ↔ i.id ∈ ids ∧ Encloses db vis c i
  hasChildren : ∀ ids c i, (∃! r, r ∈ (buildHasChildrenQuery db ids vis).rows ∧
    r.symbolInstance = c ∧ r.containedInstance = i) ↔ c.id ∈ ids ∧ Encloses db vis c i

/-- A row of the reference queries on one root is a reference with what it joins. -/
theorem references_row {p : Project} {r : ParentsRow} (hr : r ∈ parentsRows db)
    (hjoins : p.Joins db r.symbolRef r.symbolInstance r.symbol r.parentDecl r.parentSymbol)
    (hvisible : r.symbolRef.layer ∈ vis.visible)
    (hrange : r.parentDecl.offsetRange.contains r.symbolRef.fromOffsetRange = true) :
    References db vis r.symbolRef r.symbolInstance r.parentDecl := by
  obtain ⟨hf, -, hi, hd, -, hfy, hyi, hdf, -⟩ := (mem_parentsRows db).mp hr
  exact {
    ref := hf
    visible := hvisible
    target := hi
    symbol := (hfy.trans hyi).symm
    targetRoot := hjoins.child.root.trans hjoins.ref.symm
    source := hd
    object := hdf
    sourceRoot := hjoins.parent.root.trans hjoins.ref.symm
    range := hrange }

namespace Database.Apart

variable (h : db.Apart) (hvis : ∀ layer ∈ vis.visible, 0 < layer)

include h hvis

/-- An instance that is visible is joined, once. -/
theorem current_perm : ((buildCurrentQuery db vis).rows.map (·.symbolInstance)).Perm
    (db.symbolInstances.filter fun i => vis.admits i.layer) := by
  have hrows : ((buildCurrentQuery db vis).rows.map (·.symbolInstance)).Nodup := by
    apply List.Nodup.of_map SymbolInstance.id
    rw [List.map_map]
    exact (nodup_currentRows db).sublist
      ((List.filter_sublist.trans List.filter_sublist).map _)
  have hinstances := (List.Nodup.of_map _ db.symbolInstances_nodup).filter
    fun i : SymbolInstance => vis.admits i.layer
  rw [List.perm_ext_iff_of_nodup hrows hinstances]
  intro i
  rw [List.mem_map, List.mem_filter, VisibilitySpec.admits_iff]
  constructor
  · rintro ⟨r, hr, rfl⟩
    obtain ⟨hr, -, hlayer⟩ := mem_buildCurrentQuery.mp hr
    exact ⟨((mem_currentRows db).mp hr).2.1, hlayer⟩
  · rintro ⟨hi, hlayer⟩
    obtain ⟨p, hfiles⟩ := h.files_instance hvis hi hlayer
    obtain ⟨y, hy, hyid, hyproject, hylayer, -⟩ := hfiles.symbol
    obtain ⟨o, ho, hoid, -⟩ := hfiles.object
    refine ⟨⟨y, i, o, p⟩, mem_buildCurrentQuery.mpr ⟨?_, ?_, hlayer⟩, rfl⟩
    · exact (mem_currentRows db).mpr ⟨hy, hi, ho, hfiles.mem, hyid, hyproject, hoid⟩
    · show y.layer ∈ vis.visible
      rw [hylayer, ← hfiles.root]
      exact hlayer

/-- A reference is joined with its symbol, with an instance of this and with one around it. -/
theorem exists_parentsRow {f : SymbolRef} {i d : SymbolInstance}
    (href : References db vis f i d) : ∃ y z, ⟨f, y, i, d, z⟩ ∈ parentsRows db ∧
      y.layer ∈ vis.visible ∧ i.layer ∈ vis.visible ∧ d.layer ∈ vis.visible ∧
      z.layer ∈ vis.visible ∧ ∃ o ∈ db.objects, o.id = d.objectId := by
  have hi : i.layer ∈ vis.visible := href.targetRoot ▸ href.visible
  have hd : d.layer ∈ vis.visible := href.sourceRoot ▸ href.visible
  obtain ⟨p, hchild⟩ := h.files_instance hvis href.target hi
  obtain ⟨q, hparent⟩ := h.files_instance hvis href.source hd
  obtain ⟨y, hy, hyid, -, hylayer, -⟩ := hchild.symbol
  obtain ⟨z, hz, hzid, -, hzlayer, -⟩ := hparent.symbol
  obtain ⟨o, ho, hoid, -⟩ := hparent.object
  refine ⟨y, z, (mem_parentsRows db).mpr ?_, ?_, hi, hd, ?_, o, ho, hoid⟩
  · exact ⟨href.ref, hy, href.target, href.source, hz, (hyid.trans href.symbol).symm, hyid,
      href.object, hzid⟩
  · rw [hylayer, ← hchild.root]
    exact hi
  · rw [hzlayer, ← hparent.root]
    exact hd

theorem parents_exact (ids : List ℤ) (f : SymbolRef) (i d : SymbolInstance) :
    (∃! r, r ∈ (buildParentsQuery db ids vis).rows ∧ r.symbolRef = f ∧ r.symbolInstance = i ∧
      r.parentDecl = d) ↔ i.id ∈ ids ∧ References db vis f i d := by
  constructor
  · rintro ⟨r, ⟨hr, rfl, rfl, rfl⟩, -⟩
    obtain ⟨hr, hrange, hid, href, -, hinstance, hparent, -⟩ := mem_buildParentsQuery.mp hr
    obtain ⟨p, hjoins, -⟩ := h.joins_row hvis hr href hinstance hparent
    exact ⟨hid, references_row hr hjoins href hrange⟩
  · rintro ⟨hid, href⟩
    obtain ⟨y, z, hr, hy, hi, hd, hz, -⟩ := h.exists_parentsRow hvis href
    refine ⟨⟨f, y, i, d, z⟩, ⟨?_, rfl, rfl, rfl⟩, ?_⟩
    · exact mem_buildParentsQuery.mpr ⟨hr, href.range, hid, href.visible, hy, hi, hd, hz⟩
    · rintro r' ⟨hr', rfl, rfl, rfl⟩
      exact parentsRows_inj db (mem_buildParentsQuery.mp hr').1 hr rfl

theorem children_exact (ids : List ℤ) (f : SymbolRef) (i d : SymbolInstance) :
    (∃! r, r ∈ (buildChildrenQuery db ids vis).rows ∧ r.symbolRef = f ∧ r.symbolInstance = i ∧
      r.parentDecl = d) ↔ d.id ∈ ids ∧ References db vis f i d := by
  constructor
  · rintro ⟨r, ⟨hr, rfl, rfl, rfl⟩, -⟩
    obtain ⟨hr, hrange, hid, href, -, hinstance, hparent, -⟩ := mem_buildChildrenQuery.mp hr
    obtain ⟨hr, -, -⟩ := mem_childrenRows.mp hr
    obtain ⟨p, hjoins, -⟩ := h.joins_row hvis hr href hinstance hparent
    exact ⟨hid, references_row hr hjoins href hrange⟩
  · rintro ⟨hid, href⟩
    obtain ⟨y, z, hr, hy, hi, hd, hz, o, ho, hoid⟩ := h.exists_parentsRow hvis href
    have hchildren : ⟨f, y, i, d, z, o⟩ ∈ childrenRows db := mem_childrenRows.mpr ⟨hr, ho, hoid⟩
    refine ⟨⟨f, y, i, d, z, o⟩, ⟨?_, rfl, rfl, rfl⟩, ?_⟩
    · exact mem_buildChildrenQuery.mpr
        ⟨hchildren, href.range, hid, href.visible, hy, hi, hd, hz⟩
    · rintro r' ⟨hr', rfl, rfl, rfl⟩
      exact List.inj_on_of_nodup_map (nodup_childrenRows db) (mem_buildChildrenQuery.mp hr').1
        hchildren rfl

/-- Two instances, one around the other, are typed and on one root. -/
theorem exists_typed_of_encloses {c i : SymbolInstance} (hencloses : Encloses db vis c i) :
    ∃ x ∈ typedInstances db, ∃ y ∈ typedInstances db, x.1.1 = c ∧ y.1.1 = i ∧
      y.2.level ≤ x.2.level ∧ x.1.2.layer ∈ vis.visible ∧ y.1.2.layer ∈ vis.visible ∧
      c.layer ∈ vis.visible ∧ ∃ o ∈ db.objects, o.id = c.objectId := by
  have hc : c.layer ∈ vis.visible := hencloses.root ▸ hencloses.visible
  obtain ⟨p, hp⟩ := h.files_instance hvis hencloses.outer hc
  obtain ⟨q, hq⟩ := h.files_instance hvis hencloses.inner hencloses.visible
  obtain ⟨z, u, hx, houter⟩ := Project.Files.exists_typed hencloses.outer hp
  obtain ⟨y, t, hy, hinner⟩ := Project.Files.exists_typed hencloses.inner hq
  obtain ⟨o, ho, hoid, -⟩ := hp.object
  refine ⟨_, hx, _, hy, rfl, rfl, ?_, ?_, ?_, hc, o, ho, hoid⟩
  · exact hencloses.level _ (levelOf_of_typed hy) _ (levelOf_of_typed hx)
  · show z.layer ∈ vis.visible
    rw [houter.symbolRoot, ← houter.root]
    exact hc
  · show y.layer ∈ vis.visible
    rw [hinner.symbolRoot, ← hinner.root]
    exact hencloses.visible

/-- Typed instances that a containment query joins are one around the other. -/
theorem encloses_typed {x y : TypedInstance} (hx : x ∈ typedInstances db)
    (hy : y ∈ typedInstances db) (hobject : x.1.1.objectId = y.1.1.objectId)
    (hrange : x.1.1.offsetRange.contains y.1.1.offsetRange = true)
    (hlevel : y.2.level ≤ x.2.level) (hne : x.1.1.id ≠ y.1.1.id)
    (hxlayer : x.1.1.layer ∈ vis.visible) (hylayer : y.1.1.layer ∈ vis.visible) :
    Encloses db vis x.1.1 y.1.1 := by
  obtain ⟨p, hnests, -⟩ := h.nests_typed hvis hx hy hobject hxlayer hylayer
  refine ⟨((mem_typedInstances db).mp hx).1, ((mem_typedInstances db).mp hy).1, hylayer,
    hnests.outer.root.trans hnests.inner.root.symm, hobject, hrange, ?_, hne⟩
  intro a ha b hb
  rw [levelOf_of_typed hy] at ha
  rw [levelOf_of_typed hx] at hb
  obtain rfl := Option.some.inj ha
  obtain rfl := Option.some.inj hb
  exact hlevel

theorem hasParents_exact (ids : List ℤ) (c i : SymbolInstance) :
    (∃! r, r ∈ (buildHasParentsQuery db ids vis).rows ∧ r.symbolInstance = i ∧
      r.containerInstance = c) ↔ i.id ∈ ids ∧ Encloses db vis c i := by
  constructor
  · rintro ⟨r, ⟨hr, rfl, rfl⟩, -⟩
    obtain ⟨hr, hid, hrange, hlevel, hne, -, hlayer, -, hcontainer⟩ :=
      mem_buildHasParentsQuery.mp hr
    obtain ⟨x, hx, y, hy, hobject, rfl⟩ := mem_hasParentsRows.mp hr
    exact ⟨hid, h.encloses_typed hvis hx hy hobject hrange hlevel hne hcontainer hlayer⟩
  · rintro ⟨hid, hencloses⟩
    obtain ⟨x, hx, y, hy, rfl, rfl, hlevel, hxlayer, hylayer, hc, -⟩ :=
      h.exists_typed_of_encloses hvis hencloses
    have hrow : hasParentsRow x y ∈ hasParentsRows db :=
      mem_hasParentsRows.mpr ⟨x, hx, y, hy, hencloses.object, rfl⟩
    refine ⟨hasParentsRow x y, ⟨?_, rfl, rfl⟩, ?_⟩
    · exact mem_buildHasParentsQuery.mpr ⟨hrow, hid, hencloses.range, hlevel, hencloses.ne,
        hylayer, hencloses.visible, hxlayer, hc⟩
    · rintro r' ⟨hr', hi, hc'⟩
      apply List.inj_on_of_nodup_map (nodup_hasParentsRows db) (mem_buildHasParentsQuery.mp hr').1
        hrow
      rw [HasParentsRow.key, hi, hc']
      rfl

theorem hasChildren_exact (ids : List ℤ) (c i : SymbolInstance) :
    (∃! r, r ∈ (buildHasChildrenQuery db ids vis).rows ∧ r.symbolInstance = c ∧
      r.containedInstance = i) ↔ c.id ∈ ids ∧ Encloses db vis c i := by
  constructor
  · rintro ⟨r, ⟨hr, rfl, rfl⟩, -⟩
    obtain ⟨hr, hid, hrange, hlevel, hne, -, hlayer, -, hcontained⟩ :=
      mem_buildHasChildrenInner.mp hr
    obtain ⟨x, hx, y, hy, o, -, -, hobject, rfl⟩ := mem_hasChildrenRows.mp hr
    exact ⟨List.contains_iff_mem.mp hid,
      h.encloses_typed hvis hx hy hobject.symm hrange hlevel hne hlayer hcontained⟩
  · rintro ⟨hid, hencloses⟩
    obtain ⟨x, hx, y, hy, rfl, rfl, hlevel, hxlayer, hylayer, hc, o, ho, hoid⟩ :=
      h.exists_typed_of_encloses hvis hencloses
    have hrow : hasChildrenRow x y o ∈ hasChildrenRows db :=
      mem_hasChildrenRows.mpr ⟨x, hx, y, hy, o, ho, hoid, hencloses.object.symm, rfl⟩
    refine ⟨hasChildrenRow x y o, ⟨?_, rfl, rfl⟩, ?_⟩
    · exact mem_buildHasChildrenInner.mpr ⟨hrow, List.contains_iff_mem.mpr hid, hencloses.range,
        hlevel, hencloses.ne, hxlayer, hc, hylayer, hencloses.visible⟩
    · rintro r' ⟨hr', hc', hi⟩
      apply List.inj_on_of_nodup_map (nodup_hasChildrenRows db)
        (mem_buildHasChildrenInner.mp hr').1 hrow
      rw [HasChildrenRow.key, hc', hi]
      rfl

/-- **A query of root layers loses no row and repeats none.** -/
theorem queriesExact : QueriesExact db vis where
  current := h.current_perm hvis
  parents := h.parents_exact hvis
  children := h.children_exact hvis
  hasParents := h.hasParents_exact hvis
  hasChildren := h.hasChildren_exact hvis

end Database.Apart

end Askl
