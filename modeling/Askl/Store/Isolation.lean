import Askl.Store.Filed
import Askl.Store.SymbolIds

/-!
# Projects do not mix

Nothing in the tables says that an instance and its object, its symbol and its layer are of one
project: each is tied to the others by an id.  The ids of symbols carry their project, objects
are found by project and path, and an upload writes on the root of its project, so that no
request ties rows of two projects together.

## Main definitions

* `Store.SymbolIdOf`, `Store.RootOf` — the ids and the root layer of a project.
* `Store.Within` — what a row in an object refers to is of the object's project.
* `Store.RowsWithin`, `Store.Isolated` — every row refers to its own project only.
* `Store.ObjectsKept` — the objects of a chunk, over those that were there.
* `Store.Fewer` — a store without some of the rows.

## Main results

* `Store.Isolated.handle` — every request keeps the projects apart.
* `isolated_of_run` — **in every store that requests lead to, projects do not mix.**
* `Store.Isolated.symbol_eq` — what is in an object is about symbols of the object's project.
-/

namespace Askl

namespace Store

/-- The id of a symbol of a project. -/
def SymbolIdOf (projectId id : ℤ) : Prop := ∃ localId, computeSymbolId projectId localId = .ok id

/-- The root layer of a project that is there. -/
def RootOf (s : Store) (projectId layer : ℤ) : Prop :=
  ∃ p ∈ s.projects, p.id = projectId ∧ p.rootLayerId = layer

/-- A row in an object is about a symbol of the object's project, and on the root of this. -/
def Within (s : Store) (objectId symbol layer : ℤ) : Prop :=
  ∃ o ∈ s.objects, o.id = objectId ∧ SymbolIdOf o.row.projectId symbol ∧
    s.RootOf o.row.projectId layer

/-- Instances and references have ids of their own, and are within the projects of their
objects. -/
structure RowsWithin (s : Store) : Prop where
  instanceIds : (s.symbolInstances.map (·.id)).Nodup
  instanceSequence : ∀ i ∈ s.symbolInstances, i.id < s.nextInstanceId
  instances : ∀ i ∈ s.symbolInstances, s.Within i.objectId i.symbol i.layer
  refIds : (s.symbolRefs.map (·.id)).Nodup
  refSequence : ∀ r ∈ s.symbolRefs, r.id < s.nextRefId
  refs : ∀ r ∈ s.symbolRefs, s.Within r.fromObject r.toSymbol r.layer

/-- Symbols have ids of their project, types that are valid and the root of their project as
layer, and no row refers to another project than its own. -/
structure Isolated (s : Store) : Prop where
  filed : s.Filed
  constrained : s.Constrained
  symbolIds : (s.symbols.map (·.id)).Nodup
  symbolTypes : ∀ y ∈ s.symbols, validateSymbolType y.symbolType = .ok y.symbolType
  symbols : ∀ y ∈ s.symbols, SymbolIdOf y.projectId y.id ∧ s.RootOf y.projectId y.layer
  rows : s.RowsWithin

variable {s s' : Store} {projectId : ℤ}

/-! ### Ids and roots -/

theorem SymbolIdOf.pos {id : ℤ} (h : SymbolIdOf projectId id) : 0 < projectId := by
  obtain ⟨localId, hid⟩ := h
  unfold computeSymbolId at hid
  by_contra hpos
  rw [if_pos (by omega)] at hid
  cases hid

/-- The id of a symbol tells its project. -/
theorem SymbolIdOf.inj {q id : ℤ} (h : SymbolIdOf projectId id) (hlt : projectId < 2 ^ 31)
    (h' : SymbolIdOf q id) (hlt' : q < 2 ^ 31) : q = projectId := by
  have hpos := h.pos
  have hpos' := h'.pos
  obtain ⟨l, hl⟩ := h
  obtain ⟨l', hl'⟩ := h'
  exact (computeSymbolId_inj hpos hlt hpos' hlt' hl hl').1

theorem RootOf.mono {layer : ℤ} (h : s.RootOf projectId layer)
    (hprojects : s.projects ⊆ s'.projects) : s'.RootOf projectId layer := by
  obtain ⟨p, hp, hid, hroot⟩ := h
  exact ⟨p, hprojects hp, hid, hroot⟩

theorem rootOf_congr (hprojects : s'.projects = s.projects) {layer : ℤ} :
    s'.RootOf projectId layer ↔ s.RootOf projectId layer := by
  unfold RootOf
  rw [hprojects]

/-- A project has one root. -/
theorem Filed.rootOf_inj (h : s.Filed) {layer layer' : ℤ} (hr : s.RootOf projectId layer)
    (hr' : s.RootOf projectId layer') : layer = layer' := by
  obtain ⟨p, hp, hid, rfl⟩ := hr
  obtain ⟨q, hq, hqid, rfl⟩ := hr'
  rw [List.inj_on_of_nodup_map h.projectIds hp hq (hid.trans hqid.symm)]

theorem Filed.rootOf_object (h : s.Filed) {o : ObjectRow} (ho : o ∈ s.objects) :
    s.RootOf o.row.projectId o.row.layer :=
  h.objects o ho

theorem rootOf_findProject {p : ProjectRow} (h : s.findProject projectId = some p) :
    s.RootOf projectId p.rootLayerId := by
  obtain ⟨hp, hid⟩ := findProject_eq_some h
  exact ⟨p, hp, hid, rfl⟩

/-- What is in an object stays within its project as long as objects keep theirs. -/
theorem Within.mono {objectId symbol layer : ℤ} (h : s.Within objectId symbol layer)
    (hobjects : ∀ o ∈ s.objects, ∃ o' ∈ s'.objects, o'.id = o.id ∧
      o'.row.projectId = o.row.projectId)
    (hprojects : ∀ p layer, s.RootOf p layer → s'.RootOf p layer) :
    s'.Within objectId symbol layer := by
  obtain ⟨o, ho, rfl, hsymbol, hroot⟩ := h
  obtain ⟨o', ho', hid, hproject⟩ := hobjects o ho
  refine ⟨o', ho', hid, ?_, ?_⟩
  · rw [hproject]
    exact hsymbol
  · rw [hproject]
    exact hprojects _ _ hroot

/-! ### The rows of a chunk -/

theorem of_validateType {value : ℤ} {valid : List ℤ} {label : String} {type : ℤ}
    (h : validateType value valid label = .ok type) : type = value := by
  unfold validateType at h
  split at h
  · exact (Except.ok.inj h).symm
  · cases h

section Rows

variable {rootLayerId : ℤ}

/-- The row of a symbol has an id of its project, and a type that is valid. -/
theorem symbolIdOf_buildSymbol {symbol : UploadSymbol} {row : NewSymbol}
    (h : buildSymbol projectId rootLayerId symbol = .ok row) :
    SymbolIdOf projectId row.id ∧ row.projectId = projectId ∧ row.layer = rootLayerId ∧
      validateSymbolType row.symbolType = .ok row.symbolType := by
  obtain ⟨id, hid, h⟩ := Fallible.bind_eq_ok.mp h
  obtain ⟨symbolType, htype, h⟩ := Fallible.bind_eq_ok.mp h
  obtain rfl := Except.ok.inj h
  obtain rfl := of_validateType htype
  exact ⟨⟨symbol.localId, hid⟩, rfl, rfl, htype⟩

theorem symbolIdOf_buildSymbolsFrom {seen : List ℤ} {symbols : List UploadSymbol}
    {rows : List NewSymbol} (h : buildSymbolsFrom projectId rootLayerId seen symbols = .ok rows) :
    ∀ row ∈ rows, SymbolIdOf projectId row.id ∧ row.projectId = projectId ∧
      row.layer = rootLayerId ∧ validateSymbolType row.symbolType = .ok row.symbolType := by
  induction symbols generalizing seen rows with
  | nil =>
    obtain rfl := Except.ok.inj h
    exact List.forall_mem_nil _
  | cons symbol symbols ih =>
    unfold buildSymbolsFrom at h
    split at h
    · cases h
    · obtain ⟨row, hrow, h⟩ := Fallible.bind_eq_ok.mp h
      obtain ⟨rest, hrest, h⟩ := Fallible.bind_eq_ok.mp h
      obtain rfl := Except.ok.inj h
      exact List.forall_mem_cons.mpr ⟨symbolIdOf_buildSymbol hrow, ih hrest⟩

/-- What a local id resolves to has been mapped. -/
theorem lookup_of_resolveObjectId {map : ObjectMap} {localId id : ℤ}
    (h : resolveObjectId map localId = .ok id) : map.lookup localId = some id := by
  unfold resolveObjectId at h
  split at h
  · next id' hlookup => rw [hlookup, Except.ok.inj h]
  · cases h

theorem symbolIdOf_buildSymbolInstance {objectId : ℤ} {inst : UploadInstance}
    {row : NewSymbolInstance}
    (h : buildSymbolInstance projectId rootLayerId objectId inst = .ok row) :
    SymbolIdOf projectId row.symbol ∧ row.layer = rootLayerId ∧ row.objectId = objectId := by
  obtain ⟨symbolId, hid, h⟩ := Fallible.bind_eq_ok.mp h
  -- the type is that of the instance, or the one of a definition
  have htyped : ∃ instanceType, row = ⟨symbolId, objectId, inst.startOffset, inst.endOffset,
      instanceType, rootLayerId⟩ := by
    simp only at h
    split at h
    · obtain ⟨instanceType, -, h⟩ := Fallible.bind_eq_ok.mp h
      exact ⟨instanceType, (Except.ok.inj h).symm⟩
    · exact ⟨instanceTypeDefinition, (Except.ok.inj h).symm⟩
  obtain ⟨instanceType, rfl⟩ := htyped
  exact ⟨⟨inst.symbolLocalId, hid⟩, rfl, rfl⟩

theorem symbolIdOf_buildSymbolRef {objectId : ℤ} {reference : UploadRef} {row : NewSymbolRef}
    (h : buildSymbolRef projectId rootLayerId objectId reference = .ok row) :
    SymbolIdOf projectId row.toSymbol ∧ row.layer = rootLayerId ∧ row.fromObject = objectId := by
  obtain ⟨symbolId, hid, h⟩ := Fallible.bind_eq_ok.mp h
  obtain rfl := Except.ok.inj h
  exact ⟨⟨reference.toSymbolLocalId, hid⟩, rfl, rfl⟩

/-- The instances of a chunk are about symbols of its project, in objects the chunk has entered. -/
theorem symbolIdOf_buildSymbolInstances {map : ObjectMap} {objects : List UploadObject}
    {rows : List NewSymbolInstance}
    (h : buildSymbolInstances projectId rootLayerId map objects = .ok rows) :
    ∀ row ∈ rows, SymbolIdOf projectId row.symbol ∧ row.layer = rootLayerId ∧
      ∃ localId, map.lookup localId = some row.objectId := by
  induction objects generalizing rows with
  | nil =>
    obtain rfl := Except.ok.inj h
    exact List.forall_mem_nil _
  | cons object objects ih =>
    obtain ⟨objectId, hobject, h⟩ := Fallible.bind_eq_ok.mp h
    obtain ⟨own, hown, h⟩ := Fallible.bind_eq_ok.mp h
    obtain ⟨others, hothers, h⟩ := Fallible.bind_eq_ok.mp h
    obtain rfl := Except.ok.inj h
    intro row hrow
    rcases List.mem_append.mp hrow with hrow | hrow
    · obtain ⟨inst, -, hbuild⟩ := Fallible.exists_of_mem_mapM hown hrow
      obtain ⟨hsymbol, hlayer, rfl⟩ := symbolIdOf_buildSymbolInstance hbuild
      exact ⟨hsymbol, hlayer, object.localId, lookup_of_resolveObjectId hobject⟩
    · exact ih hothers row hrow

/-- The references of a chunk are to symbols of its project, from objects the chunk has entered. -/
theorem symbolIdOf_buildSymbolRefs {map : ObjectMap} {objects : List UploadObject}
    {rows : List NewSymbolRef}
    (h : buildSymbolRefs projectId rootLayerId map objects = .ok rows) :
    ∀ row ∈ rows, SymbolIdOf projectId row.toSymbol ∧ row.layer = rootLayerId ∧
      ∃ localId, map.lookup localId = some row.fromObject := by
  induction objects generalizing rows with
  | nil =>
    obtain rfl := Except.ok.inj h
    exact List.forall_mem_nil _
  | cons object objects ih =>
    obtain ⟨objectId, hobject, h⟩ := Fallible.bind_eq_ok.mp h
    obtain ⟨own, hown, h⟩ := Fallible.bind_eq_ok.mp h
    obtain ⟨others, hothers, h⟩ := Fallible.bind_eq_ok.mp h
    obtain rfl := Except.ok.inj h
    intro row hrow
    rcases List.mem_append.mp hrow with hrow | hrow
    · obtain ⟨reference, -, hbuild⟩ := Fallible.exists_of_mem_mapM hown hrow
      obtain ⟨hsymbol, hlayer, rfl⟩ := symbolIdOf_buildSymbolRef hbuild
      exact ⟨hsymbol, hlayer, object.localId, lookup_of_resolveObjectId hobject⟩
    · exact ih hothers row hrow

end Rows

/-! ### The objects of a chunk -/

/-- While a chunk of a project is entered, objects keep their ids and projects, and what has been
mapped is an object of the project. -/
structure ObjectsKept (projectId : ℤ) (s : Store) (c : Store × ObjectMap) : Prop where
  constrained : c.1.Constrained
  kept : ∀ o ∈ s.objects, ∃ o' ∈ c.1.objects, o'.id = o.id ∧ o'.row.projectId = o.row.projectId
  mapped : ∀ localId id, c.2.lookup localId = some id →
    ∃ o ∈ c.1.objects, o.id = id ∧ o.row.projectId = projectId

/-- An object that is overwritten keeps its project. -/
theorem kept_upsertObject {m : ObjectMap} {e : ObjectInsert} (hs : s.Constrained) :
    ∀ o ∈ s.objects, ∃ o' ∈ (upsertObject (s, m) e).1.objects, o'.id = o.id ∧
      o'.row.projectId = o.row.projectId := by
  intro o ho
  unfold upsertObject
  split
  · next old hfind =>
    obtain ⟨hold, hproject, -⟩ := hs.findObject_eq_some.mp hfind
    refine ⟨_, List.mem_map_of_mem ho, ?_⟩
    split
    · next hid =>
      obtain rfl := hs.eq_of_id ho hold hid
      exact ⟨rfl, hproject.symm⟩
    · exact ⟨rfl, rfl⟩
  · exact ⟨o, List.mem_append_left _ ho, rfl, rfl⟩

theorem ObjectsKept.upsert {c : Store × ObjectMap} (h : ObjectsKept projectId s c)
    {e : ObjectInsert} (he : e.row.projectId = projectId) :
    ObjectsKept projectId s (upsertObject c e) := by
  obtain ⟨x, m⟩ := c
  have hkept := kept_upsertObject (m := m) (e := e) h.constrained
  obtain ⟨x', o, hupsert, hupserted⟩ := exists_upserted h.constrained m e
  rw [hupsert] at hkept ⊢
  refine ⟨hupserted.constrained, fun old hold => ?_, fun localId id hlookup => ?_⟩
  · obtain ⟨o₁, ho₁, hid₁, hproject₁⟩ := h.kept old hold
    obtain ⟨o₂, ho₂, hid₂, hproject₂⟩ := hkept o₁ ho₁
    exact ⟨o₂, ho₂, hid₂.trans hid₁, hproject₂.trans hproject₁⟩
  · rw [List.lookup_cons] at hlookup
    split at hlookup
    · obtain rfl := Option.some.inj hlookup
      obtain ⟨ho, hproject, -⟩ := hupserted.constrained.findObject_eq_some.mp hupserted.found
      exact ⟨o, ho, rfl, hproject.trans he⟩
    · obtain ⟨o₁, ho₁, rfl, hproject₁⟩ := h.mapped localId id hlookup
      obtain ⟨o₂, ho₂, hid₂, hproject₂⟩ := hkept o₁ ho₁
      exact ⟨o₂, ho₂, hid₂, hproject₂.trans hproject₁⟩

theorem ObjectsKept.upserts {c : Store × ObjectMap} (h : ObjectsKept projectId s c)
    {rows : List ObjectInsert} (hrows : ∀ e ∈ rows, e.row.projectId = projectId) :
    ObjectsKept projectId s (rows.foldl upsertObject c) := by
  induction rows generalizing c with
  | nil => exact h
  | cons e rows ih =>
    obtain ⟨he, hrows⟩ := List.forall_mem_cons.mp hrows
    exact ih (h.upsert he) hrows

/-- The objects of a chunk are entered among those that were there. -/
theorem objectsKept_insertObjects (hs : s.Constrained) {inserts : List ObjectInsert}
    {inserted : Store × ObjectMap} (hrows : ∀ e ∈ inserts, e.row.projectId = projectId)
    (h : s.insertObjects inserts = .ok inserted) : ObjectsKept projectId s inserted := by
  refine Fallible.invariant_of_foldlM (I := ObjectsKept projectId s)
    (fun statement hmem c c' hc hc' => ?_) h
    ⟨hs, fun o ho => ⟨o, ho, rfl, rfl⟩, fun localId id hlookup => by cases hlookup⟩
  obtain ⟨k, -, rfl⟩ := List.mem_map.mp hmem
  unfold insertObjectRows at hc'
  split at hc'
  swap
  · cases hc'
  obtain rfl := Except.ok.inj hc'
  have hstatement : ∀ e ∈ (inserts.drop (k * maxInsertRows)).take maxInsertRows,
      e.row.projectId = projectId := by
    intro e he
    exact hrows e (List.mem_of_mem_drop (List.mem_of_mem_take he))
  have hkept := hc.upserts hstatement
  -- the contents of the statement go to a table of their own
  refine ⟨hkept.constrained.insertContents _, ?_, ?_⟩
  · rw [objects_insertContents]
    exact hkept.kept
  · rw [objects_insertContents]
    exact hkept.mapped

/-! ### The rows of a chunk, entered -/

/-- An id that is ahead of the others is new. -/
theorem nodup_map_concat {α : Type} {key : α → ℤ} {rows : List α} {row : α}
    (h : (rows.map key).Nodup) (hnew : ∀ r ∈ rows, key r < key row) :
    ((rows ++ [row]).map key).Nodup := by
  rw [List.map_append, List.nodup_append]
  refine ⟨h, List.nodup_singleton _, ?_⟩
  intro a ha b hb
  obtain ⟨r, hr, rfl⟩ := List.mem_map.mp ha
  obtain rfl := List.mem_singleton.mp hb
  exact (hnew r hr).ne

/-- A sequence is ahead of the row it has numbered. -/
theorem forall_lt_concat {α : Type} {key : α → ℤ} {rows : List α} {row : α} {next next' : ℤ}
    (h : ∀ r ∈ rows, key r < next) (hnext : next < next') (hrow : key row = next) :
    ∀ r ∈ rows ++ [row], key r < next' := by
  rw [List.forall_mem_append]
  constructor
  · intro r hr
    exact (h r hr).trans hnext
  · rw [List.forall_mem_singleton, hrow]
    exact hnext

theorem Within.of_eq {objectId symbol layer : ℤ} (h : s.Within objectId symbol layer)
    (hobjects : s'.objects = s.objects) (hprojects : s'.projects = s.projects) :
    s'.Within objectId symbol layer := by
  apply h.mono
  · intro o ho
    exact ⟨o, hobjects ▸ ho, rfl, rfl⟩
  · intro p layer hroot
    exact (rootOf_congr hprojects).mpr hroot

/-- Instances and references stay within their projects as long as objects do. -/
theorem RowsWithin.of_objects (h : s.RowsWithin)
    (hobjects : ∀ o ∈ s.objects, ∃ o' ∈ s'.objects, o'.id = o.id ∧
      o'.row.projectId = o.row.projectId)
    (hprojects : ∀ p layer, s.RootOf p layer → s'.RootOf p layer)
    (hinstances : s'.symbolInstances = s.symbolInstances)
    (hnextInstance : s'.nextInstanceId = s.nextInstanceId) (hrefs : s'.symbolRefs = s.symbolRefs)
    (hnextRef : s'.nextRefId = s.nextRefId) : s'.RowsWithin where
  instanceIds := hinstances ▸ h.instanceIds
  instanceSequence := by
    rw [hinstances, hnextInstance]
    exact h.instanceSequence
  instances := by
    rw [hinstances]
    exact fun i hi => (h.instances i hi).mono hobjects hprojects
  refIds := hrefs ▸ h.refIds
  refSequence := by
    rw [hrefs, hnextRef]
    exact h.refSequence
  refs := by
    rw [hrefs]
    exact fun r hr => (h.refs r hr).mono hobjects hprojects

theorem RowsWithin.insertSymbolInstance (h : s.RowsWithin) {row : NewSymbolInstance}
    (hrow : s.Within row.objectId row.symbol row.layer)
    (hinsert : s.insertSymbolInstance row = .ok s') : s'.RowsWithin := by
  unfold Store.insertSymbolInstance at hinsert
  split at hinsert
  · cases hinsert
  split at hinsert
  · obtain rfl := Except.ok.inj hinsert
    exact h
  split at hinsert
  · cases hinsert
  obtain rfl := Except.ok.inj hinsert
  refine ⟨nodup_map_concat h.instanceIds h.instanceSequence, ?_, ?_, h.refIds, h.refSequence,
    h.refs⟩
  · exact forall_lt_concat h.instanceSequence (Int.lt_succ _) rfl
  · exact List.forall_mem_append.mpr ⟨h.instances, List.forall_mem_singleton.mpr hrow⟩

theorem RowsWithin.insertSymbolRef (h : s.RowsWithin) {row : NewSymbolRef}
    (hrow : s.Within row.fromObject row.toSymbol row.layer)
    (hinsert : s.insertSymbolRef row = .ok s') : s'.RowsWithin := by
  unfold Store.insertSymbolRef at hinsert
  split at hinsert
  · cases hinsert
  split at hinsert
  · obtain rfl := Except.ok.inj hinsert
    exact h
  split at hinsert
  · cases hinsert
  obtain rfl := Except.ok.inj hinsert
  refine ⟨h.instanceIds, h.instanceSequence, h.instances, nodup_map_concat h.refIds h.refSequence,
    ?_, ?_⟩
  · exact forall_lt_concat h.refSequence (Int.lt_succ _) rfl
  · exact List.forall_mem_append.mpr ⟨h.refs, List.forall_mem_singleton.mpr hrow⟩

/-- Rows are entered one by one, each within its project: objects and projects stay. -/
theorem RowsWithin.foldlM {R : Type} {insert : Store → R → Except UploadError Store}
    {P : Store → R → Prop} (h : s.RowsWithin)
    (hstep : ∀ {x x' row}, x.RowsWithin → P x row → insert x row = .ok x' → x'.RowsWithin)
    (hframe : ∀ {x x' row}, insert x row = .ok x' →
      x'.objects = x.objects ∧ x'.projects = x.projects)
    {rows : List R} (hrows : ∀ x : Store, x.objects = s.objects → x.projects = s.projects →
      ∀ row ∈ rows, P x row)
    (hinsert : rows.foldlM insert s = .ok s') : s'.RowsWithin := by
  refine (Fallible.invariant_of_foldlM
    (I := fun x : Store => x.RowsWithin ∧ x.objects = s.objects ∧ x.projects = s.projects)
    (fun row hrow x x' hx hx' => ?_) hinsert ⟨h, rfl, rfl⟩).1
  obtain ⟨hx, hobjects, hprojects⟩ := hx
  obtain ⟨hobjects', hprojects'⟩ := hframe hx'
  refine ⟨hstep hx (hrows x hobjects hprojects row hrow) hx', ?_, ?_⟩
  · exact hobjects'.trans hobjects
  · exact hprojects'.trans hprojects

theorem objects_insertSymbolInstance {row : NewSymbolInstance}
    (h : s.insertSymbolInstance row = .ok s') :
    s'.objects = s.objects ∧ s'.projects = s.projects := by
  have hstatement : [row].foldlM Store.insertSymbolInstance s = .ok s' := by
    rw [List.foldlM_cons, h]
    rfl
  obtain ⟨_, _, rfl⟩ := insertSymbolInstances_frame hstatement
  exact ⟨rfl, rfl⟩

theorem objects_insertSymbolRef {row : NewSymbolRef} (h : s.insertSymbolRef row = .ok s') :
    s'.objects = s.objects ∧ s'.projects = s.projects := by
  have hstatement : [row].foldlM Store.insertSymbolRef s = .ok s' := by
    rw [List.foldlM_cons, h]
    rfl
  obtain ⟨_, _, rfl⟩ := insertSymbolRefs_frame hstatement
  exact ⟨rfl, rfl⟩

/-- Instances that are within a project are entered within it. -/
theorem RowsWithin.insertSymbolInstances (h : s.RowsWithin) {rows : List NewSymbolInstance}
    (hrows : ∀ row ∈ rows, s.Within row.objectId row.symbol row.layer)
    (hinsert : rows.foldlM Store.insertSymbolInstance s = .ok s') : s'.RowsWithin := by
  apply h.foldlM (P := fun x row => x.Within row.objectId row.symbol row.layer) ?_
    objects_insertSymbolInstance ?_ hinsert
  · intro x x' row hx hrow hx'
    exact hx.insertSymbolInstance hrow hx'
  · intro x hobjects hprojects row hrow
    exact (hrows row hrow).of_eq hobjects hprojects

/-- References that are within a project are entered within it. -/
theorem RowsWithin.insertSymbolRefs (h : s.RowsWithin) {rows : List NewSymbolRef}
    (hrows : ∀ row ∈ rows, s.Within row.fromObject row.toSymbol row.layer)
    (hinsert : rows.foldlM Store.insertSymbolRef s = .ok s') : s'.RowsWithin := by
  apply h.foldlM (P := fun x row => x.Within row.fromObject row.toSymbol row.layer) ?_
    objects_insertSymbolRef ?_ hinsert
  · intro x x' row hx hrow hx'
    exact hx.insertSymbolRef hrow hx'
  · intro x hobjects hprojects row hrow
    exact (hrows row hrow).of_eq hobjects hprojects

/-- The instances and references of an object chunk are within its project. -/
theorem RowsWithin.doUploadObjects {hashBytes : Bytes → Text} {upload : UploadProject}
    (h : s.RowsWithin) (hs : s.Constrained)
    (hupload : s.doUploadObjects hashBytes projectId upload = .ok s') : s'.RowsWithin := by
  obtain ⟨rootLayerId, hroot, hupload⟩ := Fallible.bind_eq_ok.mp hupload
  obtain ⟨inserts, hinserts, hupload⟩ := Fallible.bind_eq_ok.mp hupload
  split at hupload
  swap
  · cases hupload
  obtain ⟨inserted, hinserted, hupload⟩ := Fallible.bind_eq_ok.mp hupload
  obtain ⟨instances, hinstances, hupload⟩ := Fallible.bind_eq_ok.mp hupload
  obtain ⟨s₁, hs₁, hupload⟩ := Fallible.bind_eq_ok.mp hupload
  obtain ⟨refs, hrefs, hs'⟩ := Fallible.bind_eq_ok.mp hupload
  have hproject : ∀ e ∈ inserts, e.row.projectId = projectId :=
    fun e he => (filed_of_buildObjectsFrom hinserts e he).1
  have hkept := objectsKept_insertObjects hs hproject hinserted
  obtain ⟨objects, nextObjectId, contentStore, hframe⟩ := insertObjects_frame hinserted
  -- the root is that of the project, before the chunk and after its objects
  have hrootOf : inserted.1.RootOf projectId rootLayerId := by
    unfold rootLayerOf at hroot
    split at hroot
    · cases hroot
    · next p hp =>
      obtain rfl := Except.ok.inj hroot
      rw [rootOf_congr (by rw [hframe] : inserted.1.projects = s.projects)]
      exact rootOf_findProject hp
  have hwithin : ∀ {localId objectId symbol : ℤ}, inserted.2.lookup localId = some objectId →
      SymbolIdOf projectId symbol → inserted.1.Within objectId symbol rootLayerId := by
    intro localId objectId symbol hlookup hsymbol
    obtain ⟨o, ho, rfl, rfl⟩ := hkept.mapped localId objectId hlookup
    exact ⟨o, ho, rfl, hsymbol, hrootOf⟩
  have hobjects : inserted.1.RowsWithin := by
    apply h.of_objects hkept.kept
    · intro p layer hp
      exact (rootOf_congr (by rw [hframe])).mpr hp
    all_goals rw [hframe]
  have hinstances' : s₁.RowsWithin := by
    refine hobjects.insertSymbolInstances (fun row hrow => ?_) hs₁
    obtain ⟨hsymbol, hlayer, localId, hlookup⟩ :=
      symbolIdOf_buildSymbolInstances hinstances row hrow
    rw [hlayer]
    exact hwithin hlookup hsymbol
  refine hinstances'.insertSymbolRefs (fun row hrow => ?_) hs'
  obtain ⟨hsymbol, hlayer, localId, hlookup⟩ := symbolIdOf_buildSymbolRefs hrefs row hrow
  obtain ⟨_, _, hframe₁⟩ := insertSymbolInstances_frame hs₁
  rw [hlayer]
  exact (hwithin hlookup hsymbol).of_eq (by rw [hframe₁]) (by rw [hframe₁])

/-! ### Fewer rows -/

/-- A store without some of the rows. -/
structure Fewer (s x : Store) : Prop where
  symbols : x.symbols.Sublist s.symbols
  objects : x.objects.Sublist s.objects
  instances : x.symbolInstances.Sublist s.symbolInstances
  refs : x.symbolRefs.Sublist s.symbolRefs

namespace Fewer

variable {x : Store}

theorem refl (s : Store) : Fewer s s := ⟨.refl _, .refl _, .refl _, .refl _⟩

theorem trans (h : Fewer s x) (h' : Fewer x s') : Fewer s s' where
  symbols := h'.symbols.trans h.symbols
  objects := h'.objects.trans h.objects
  instances := h'.instances.trans h.instances
  refs := h'.refs.trans h.refs

variable (h : Fewer s x)

include h

theorem filterRows (f : SymbolInstance → Bool) (g : SymbolRef → Bool) :
    Fewer s { x with
      symbolInstances := x.symbolInstances.filter f
      symbolRefs := x.symbolRefs.filter g } where
  symbols := h.symbols
  objects := h.objects
  instances := List.filter_sublist.trans h.instances
  refs := List.filter_sublist.trans h.refs

theorem keepSymbols (k : NewSymbol → Bool) : Fewer s (x.keepSymbols k) where
  symbols := List.filter_sublist.trans h.symbols
  objects := h.objects
  instances := List.filter_sublist.trans h.instances
  refs := List.filter_sublist.trans h.refs

theorem keepObjects (k : ObjectRow → Bool) : Fewer s (x.keepObjects k) where
  symbols := h.symbols
  objects := List.filter_sublist.trans h.objects
  instances := List.filter_sublist.trans h.instances
  refs := List.filter_sublist.trans h.refs

theorem deleteProjectRow (projectId : ℤ) : Fewer s (x.deleteProjectRow projectId) := by
  have hrows := (h.keepSymbols (·.projectId != projectId)).keepObjects
    (·.row.projectId != projectId)
  exact ⟨hrows.symbols, hrows.objects, hrows.instances, hrows.refs⟩

theorem deleteRootLayer (layerId : ℤ) : Fewer s (x.deleteRootLayer layerId) := by
  have hrows := ((h.keepSymbols (·.layer != layerId)).keepObjects
    (·.row.layer != layerId)).filterRows (·.layer != layerId) (·.layer != layerId)
  exact ⟨hrows.symbols, hrows.objects, hrows.instances, hrows.refs⟩

theorem purgeEphCache : Fewer s x.purgeEphCache := ⟨h.symbols, h.objects, h.instances, h.refs⟩

end Fewer

/-- The store after a deletion, but for the root layer and the cached ones. -/
theorem deleteProject_cases (s : Store) (projectId : ℤ) : ∃ x : Store, Fewer s x ∧
    (∀ y ∈ x.symbols, y.projectId ≠ projectId) ∧
      (∀ o ∈ x.objects, o.row.projectId ≠ projectId) ∧
        Fewer x (s.deleteProject projectId).store := by
  have hrange : Fewer s (s.deleteSymbolRange projectId) := (Fewer.refl s).filterRows _ _
  have hfewer := (hrange.keepSymbols (·.projectId != projectId)).keepObjects
    (·.row.projectId != projectId)
  refine ⟨_, hfewer.deleteProjectRow projectId, ?_, ?_, ?_⟩
  · intro y hy
    exact bne_iff_ne.mp (List.mem_filter.mp hy).2
  · intro o ho
    exact bne_iff_ne.mp (List.mem_filter.mp ho).2
  · unfold deleteProject
    cases s.findProject projectId with
    | none => exact (Fewer.refl _).purgeEphCache
    | some p => exact ((Fewer.refl _).deleteRootLayer p.rootLayerId).purgeEphCache

theorem projects_deleteProject (s : Store) (projectId : ℤ) :
    (s.deleteProject projectId).store.projects = s.projects.filter (·.id != projectId) := by
  unfold deleteProject
  cases s.findProject projectId <;> rfl

/-! ### Requests -/

namespace Isolated

/-- The same rows, and projects with their roots. -/
theorem of_rows (h : s.Isolated) (hfiled : s'.Filed) (hconstrained : s'.Constrained)
    (hprojects : ∀ p layer, s.RootOf p layer → s'.RootOf p layer)
    (hsymbols : s'.symbols = s.symbols) (hobjects : s'.objects = s.objects)
    (hinstances : s'.symbolInstances = s.symbolInstances)
    (hnextInstance : s'.nextInstanceId = s.nextInstanceId) (hrefs : s'.symbolRefs = s.symbolRefs)
    (hnextRef : s'.nextRefId = s.nextRefId) : s'.Isolated where
  filed := hfiled
  constrained := hconstrained
  symbolIds := hsymbols ▸ h.symbolIds
  symbolTypes := hsymbols ▸ h.symbolTypes
  symbols y hy := by
    rw [hsymbols] at hy
    obtain ⟨hid, hroot⟩ := h.symbols y hy
    exact ⟨hid, hprojects _ _ hroot⟩
  rows := by
    apply h.rows.of_objects _ hprojects hinstances hnextInstance hrefs hnextRef
    intro o ho
    exact ⟨o, hobjects ▸ ho, rfl, rfl⟩

/-- A project is gone, and its rows with it. -/
theorem without (h : s.Isolated) (hfiled : s'.Filed) (hconstrained : s'.Constrained)
    (hfewer : Fewer s s') (hprojects : s'.projects = s.projects.filter (·.id != projectId))
    (hsymbols : ∀ y ∈ s'.symbols, y.projectId ≠ projectId)
    (hobjects : ∀ o ∈ s'.objects, o.row.projectId ≠ projectId)
    (hnextInstance : s'.nextInstanceId = s.nextInstanceId)
    (hnextRef : s'.nextRefId = s.nextRefId) : s'.Isolated := by
  have hrootOf : ∀ {q layer : ℤ}, s.RootOf q layer → q ≠ projectId → s'.RootOf q layer := by
    rintro q layer ⟨p, hp, rfl, hroot⟩ hne
    refine ⟨p, ?_, rfl, hroot⟩
    rw [hprojects]
    exact List.mem_filter.mpr ⟨hp, bne_iff_ne.mpr hne⟩
  -- a row stays only if its object does, and the object only if its project does
  have hwithin : ∀ {objectId symbol layer : ℤ}, s.Within objectId symbol layer →
      (∃ o ∈ s'.objects, o.id = objectId) → s'.Within objectId symbol layer := by
    rintro objectId symbol layer ⟨o, ho, rfl, hsymbol, hroot⟩ ⟨o', ho', hid⟩
    obtain rfl := h.constrained.eq_of_id (hfewer.objects.subset ho') ho hid
    exact ⟨o', ho', rfl, hsymbol, hrootOf hroot (hobjects o' ho')⟩
  refine ⟨hfiled, hconstrained, h.symbolIds.sublist (hfewer.symbols.map _),
    fun y hy => h.symbolTypes y (hfewer.symbols.subset hy), fun y hy => ?_,
    h.rows.instanceIds.sublist (hfewer.instances.map _), fun i hi => ?_, fun i hi => ?_,
    h.rows.refIds.sublist (hfewer.refs.map _), fun r hr => ?_, fun r hr => ?_⟩
  · obtain ⟨hid, hroot⟩ := h.symbols y (hfewer.symbols.subset hy)
    exact ⟨hid, hrootOf hroot (hsymbols y hy)⟩
  · rw [hnextInstance]
    exact h.rows.instanceSequence i (hfewer.instances.subset hi)
  · exact hwithin (h.rows.instances i (hfewer.instances.subset hi))
      (hconstrained.instanceObjects i hi)
  · rw [hnextRef]
    exact h.rows.refSequence r (hfewer.refs.subset hr)
  · exact hwithin (h.rows.refs r (hfewer.refs.subset hr)) (hconstrained.refObjects r hr)

theorem symbolChunk (h : s.Isolated) (hfiled : s'.Filed) (hconstrained : s'.Constrained)
    {symbols : List UploadSymbol} (hinsert : s.insertSymbols projectId symbols = .ok s') :
    s'.Isolated := by
  obtain ⟨rootLayerId, hroot, hinsert'⟩ := Fallible.bind_eq_ok.mp hinsert
  obtain ⟨rows, hrows, hinsert'⟩ := Fallible.bind_eq_ok.mp hinsert'
  have hrows := symbolIdOf_buildSymbolsFrom hrows
  have hrootOf : s.RootOf projectId rootLayerId := by
    unfold rootLayerOf at hroot
    split at hroot
    · cases hroot
    · next p hp =>
      obtain rfl := Except.ok.inj hroot
      exact rootOf_findProject hp
  have hsymbols : (s'.symbols.map (·.id)).Nodup ∧
      ∀ y ∈ s'.symbols, y ∈ s.symbols ∨ y ∈ rows := by
    refine Fallible.invariant_of_foldlM
      (I := fun x : Store => (x.symbols.map (·.id)).Nodup ∧
        ∀ y ∈ x.symbols, y ∈ s.symbols ∨ y ∈ rows)
      (fun row hrow x x' hx hx' => ?_) hinsert' ⟨h.symbolIds, fun y hy => Or.inl hy⟩
    obtain ⟨hnodup, hfrom⟩ := hx
    unfold insertSymbol at hx'
    split at hx'
    · cases hx'
    next hnew =>
    obtain rfl := Except.ok.inj hx'
    constructor
    · show ((x.symbols ++ [row]).map (·.id)).Nodup
      rw [List.map_append, List.nodup_append]
      refine ⟨hnodup, List.nodup_singleton _, ?_⟩
      rintro id hid id' hid' rfl
      obtain ⟨y, hy, hyid⟩ := List.mem_map.mp hid
      obtain rfl := List.mem_singleton.mp hid'
      exact hnew (List.any_eq_true.mpr ⟨y, hy, beq_iff_eq.mpr hyid⟩)
    · intro y hy
      rcases List.mem_append.mp hy with hy | hy
      · exact hfrom y hy
      · obtain rfl := List.mem_singleton.mp hy
        exact Or.inr hrow
  obtain ⟨_, rfl⟩ := insertSymbols_frame hinsert
  refine ⟨hfiled, hconstrained, hsymbols.1, fun y hy => ?_, fun y hy => ?_, ?_⟩
  · rcases hsymbols.2 y hy with hold | hnew
    · exact h.symbolTypes y hold
    · exact (hrows y hnew).2.2.2
  · rcases hsymbols.2 y hy with hold | hnew
    · exact h.symbols y hold
    · obtain ⟨hid, hproject, hlayer, -⟩ := hrows y hnew
      rw [hproject, hlayer]
      exact ⟨hid, hrootOf⟩
  · exact ⟨h.rows.instanceIds, h.rows.instanceSequence, h.rows.instances, h.rows.refIds,
      h.rows.refSequence, h.rows.refs⟩

theorem objectChunk (h : s.Isolated) (hfiled : s'.Filed) (hconstrained : s'.Constrained)
    {hashBytes : Bytes → Text} {upload : UploadProject}
    (hupload : s.doUploadObjects hashBytes projectId upload = .ok s') : s'.Isolated := by
  have hrows := h.rows.doUploadObjects h.constrained hupload
  have hsame := sameUploads_doUploadObjects hupload
  have hsymbols : s'.symbols = s.symbols := by
    obtain ⟨_, _, inserted, -, -, -, hinserted, _, _, _, _, rfl⟩ := doUploadObjects_stages hupload
    obtain ⟨objects, nextObjectId, contentStore, hframe⟩ := insertObjects_frame hinserted
    rw [hframe]
  refine ⟨hfiled, hconstrained, hsymbols ▸ h.symbolIds, hsymbols ▸ h.symbolTypes, ?_, hrows⟩
  intro y hy
  rw [hsymbols] at hy
  obtain ⟨hid, hroot⟩ := h.symbols y hy
  exact ⟨hid, (rootOf_congr hsame.projects).mpr hroot⟩

theorem setStatus (h : s.Isolated) (projectId : ℤ) (status : UploadStatus) :
    (s.setStatus projectId status).Isolated := by
  refine h.of_rows (h.filed.setStatus projectId status)
    (h.constrained.of_eq rfl rfl rfl rfl rfl) ?_ rfl rfl rfl rfl rfl rfl
  rintro q layer ⟨p, hp, hid, hroot⟩
  refine ⟨_, List.mem_map_of_mem hp, ?_, ?_⟩
  · split
    · exact hid
    · exact hid
  · split
    · exact hroot
    · exact hroot

/-- A project that is cleared away takes its rows with it. -/
theorem cleared (h : s.Isolated) {purged : Bool} (hc : Cleared s s' purged) : s'.Isolated := by
  have hfiled := h.filed.cleared hc
  rcases hc with ⟨rfl, -⟩ | ⟨z, -, -, -, rfl⟩
  · exact h
  have hrow := (Fewer.refl s).deleteProjectRow z.id
  have hfewer := (hrow.deleteRootLayer z.rootLayerId).purgeEphCache
  have hconstrained :=
    ((h.constrained.deleteProjectRow z.id).deleteRootLayer z.rootLayerId).purgeEphCache
  refine h.without hfiled hconstrained hfewer
    (show _ = s.projects.filter (·.id != z.id) from rfl) ?_ ?_ rfl rfl
  · intro y hy
    exact bne_iff_ne.mp (List.mem_filter.mp (List.mem_of_mem_filter hy)).2
  · intro o ho
    exact bne_iff_ne.mp (List.mem_filter.mp (List.mem_of_mem_filter ho)).2

theorem insertProject (h : s.Isolated) {projectName rootPath : Text}
    {symbolTotal objectTotal : Option ℤ} {rootHash : Bytes} {created : ℤ × Store}
    (hc : s.insertProject projectName rootPath symbolTotal objectTotal rootHash = .ok created) :
    created.2.Isolated := by
  have hfiled := h.filed.insertProject hc
  have hprojects := (insertProject_ok hc).2.2.1
  obtain ⟨_, _, _, _, hframe⟩ := insertProject_frame hc
  have hconstrained : created.2.Constrained := by
    rw [hframe]
    exact h.constrained.of_eq rfl rfl rfl rfl rfl
  refine h.of_rows hfiled hconstrained (fun p layer hroot => hroot.mono ?_) ?_ ?_ ?_ ?_ ?_ ?_
  · rw [hprojects]
    exact List.subset_append_left _ _
  all_goals rw [hframe]

theorem deleteProject (h : s.Isolated) (projectId : ℤ) :
    (s.deleteProject projectId).store.Isolated := by
  have hfiled := h.filed.deleteProject projectId
  have hconstrained := h.constrained.deleteProject projectId
  obtain ⟨x, hfewer, hsymbols, hobjects, hrest⟩ := s.deleteProject_cases projectId
  refine h.without hfiled hconstrained (hfewer.trans hrest) (projects_deleteProject s projectId)
    ?_ ?_ ?_ ?_
  · intro y hy
    exact hsymbols y (hrest.symbols.subset hy)
  · intro o ho
    exact hobjects o (hrest.objects.subset ho)
  all_goals
    unfold Store.deleteProject
    cases s.findProject projectId <;> rfl

/-- **Every request keeps the projects apart.** -/
theorem handle {hashBytes : Bytes → Text} (h : s.Isolated) {req : Request} {c : Committed Response}
    (hhandle : s.handle hashBytes req = .ok c) : c.store.Isolated := by
  have hfiled := h.filed.handle hhandle
  have hconstrained := h.constrained.handle hhandle
  cases handle_cases hhandle with
  | resumed | symbolChunkAgain | objectChunkAgain | notFinalized | notMarked => exact h
  | created hcleared hcreated => exact (h.cleared hcleared).insertProject hcreated
  | @symbolChunk projectId seq _ _ hnew hproject hinsert =>
    have hrecord : (s.recordSymbolChunk projectId seq).Isolated :=
      h.of_rows ⟨h.filed.projectIds, h.filed.projectIds_lt, h.filed.rootIds, h.filed.rootIds_lt,
        ⟨h.filed.roots.projects, h.filed.roots.next⟩, h.filed.layerHashes, h.filed.objects⟩
        (h.constrained.of_eq rfl rfl rfl rfl rfl) (fun _ _ hroot => hroot) rfl rfl rfl rfl rfl rfl
    exact hrecord.symbolChunk hfiled hconstrained hinsert
  | @objectChunk projectId seq _ _ hnew hproject hinsert =>
    have hrecord : (s.recordObjectChunk projectId seq).Isolated :=
      h.of_rows ⟨h.filed.projectIds, h.filed.projectIds_lt, h.filed.rootIds, h.filed.rootIds_lt,
        ⟨h.filed.roots.projects, h.filed.roots.next⟩, h.filed.layerHashes, h.filed.objects⟩
        (h.constrained.recordObjectChunk projectId seq) (fun _ _ hroot => hroot)
        rfl rfl rfl rfl rfl rfl
    exact hrecord.objectChunk hfiled hconstrained hinsert
  | @contents _ rows =>
    obtain ⟨contentStore, hframe⟩ := insertContents_eq s rows
    refine h.of_rows hfiled hconstrained (fun p layer hroot => hroot.mono ?_) ?_ ?_ ?_ ?_ ?_ ?_
    all_goals rw [hframe]
    exact List.Subset.refl _
  | @finalized projectId =>
    exact (h.setStatus projectId .complete).of_rows hfiled hconstrained (fun _ _ hroot => hroot)
      rfl rfl rfl rfl rfl rfl
  | marked => exact h.setStatus _ .deleting
  | deleted => exact h.deleteProject _

theorem initial {canaryRootHash : Bytes} (hcanary : canaryRootHash ≠ canaryHash) :
    (Store.initial canaryRootHash).Isolated where
  filed := .initial hcanary
  constrained := constrained_initial canaryRootHash
  symbolIds := List.nodup_nil
  symbolTypes := List.forall_mem_nil _
  symbols := List.forall_mem_nil _
  rows := ⟨List.nodup_nil, List.forall_mem_nil _, List.forall_mem_nil _, List.nodup_nil,
    List.forall_mem_nil _, List.forall_mem_nil _⟩

/-! ### Rows of one project -/

section Bounded

variable (h : s.Isolated) (hids : s.nextProjectId ≤ 2 ^ 31)

include h

/-- What is in an object is on the layer of the object. -/
theorem layer_eq {o : ObjectRow} (ho : o ∈ s.objects) {symbol layer : ℤ}
    (hwithin : s.Within o.id symbol layer) : layer = o.row.layer := by
  obtain ⟨o', ho', hid, -, hroot⟩ := hwithin
  obtain rfl := h.constrained.eq_of_id ho' ho hid
  exact h.filed.rootOf_inj hroot (h.filed.rootOf_object ho')

include hids

theorem projectId_lt {projectId layer : ℤ} (hroot : s.RootOf projectId layer) :
    projectId < 2 ^ 31 := by
  obtain ⟨p, hp, rfl, -⟩ := hroot
  have := h.filed.projectIds_lt p hp
  omega

/-- **What is in an object is about symbols of the object's project.** -/
theorem symbol_eq {o : ObjectRow} (ho : o ∈ s.objects) {y : NewSymbol} (hy : y ∈ s.symbols)
    {layer : ℤ} (hwithin : s.Within o.id y.id layer) :
    y.projectId = o.row.projectId ∧ y.layer = o.row.layer := by
  obtain ⟨o', ho', hid, hsymbol, hroot⟩ := hwithin
  obtain rfl := h.constrained.eq_of_id ho' ho hid
  obtain ⟨hown, hroot'⟩ := h.symbols y hy
  have hproject := hsymbol.inj (h.projectId_lt hids hroot) hown (h.projectId_lt hids hroot')
  refine ⟨hproject, ?_⟩
  rw [hproject] at hroot'
  exact h.filed.rootOf_inj hroot' (h.filed.rootOf_object ho')

end Bounded

end Isolated

end Store

/-- **In every store that requests lead to, projects do not mix.** -/
theorem isolated_of_run {hashBytes : Bytes → Text} {guard : UploadState → Request → Bool}
    {canaryRootHash : Bytes} (hcanary : canaryRootHash ≠ canaryHash) {st : UploadState}
    (hrun : Relation.ReflTransGen (UploadStep hashBytes guard) (.initial canaryRootHash) st) :
    st.store.Isolated := by
  exact storeInvariant_of_run (fun h hhandle => h.handle hhandle) (Store.Isolated.initial hcanary)
    hrun

end Askl
