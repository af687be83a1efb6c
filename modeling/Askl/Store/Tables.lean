import Askl.Index.Rows

/-!
# The tables of the index store

The tables the upload requests read and write, as `index_store/mod.rs` and the migrations
declare them: projects with the chunks that have been committed for them, the persistent
rows, the content store, and the layers.  The root layer of a project is a row among the
ephemeral layers of the query cache, and is told apart by its kind.

Sequences are unbounded here, and an id that a rolled-back insert has drawn is drawn again.

## Main definitions

* `UploadStatus`, `UploadError` — the states of a project, and how a request fails.
* `ProjectRow`, `ProjectChunk`, `NewSymbol`, `ObjectRow`, `LayerRow` — rows.
* `Store` — the tables, and the next value of each sequence.
* `Store.deleteProjectRow`, `Store.deleteRootLayer` — deletions, with what they cascade to.
* `Store.purgeEphCache` — drop every ephemeral layer.

## Main results

* `Store.ephemeralLayers_purgeEphCache` — a purge leaves no ephemeral layer.
-/

namespace Askl

/-- A `bytea` column. -/
abbrev Bytes := List UInt8

/-! ### States and errors -/

/-- `UploadStatus`. -/
inductive UploadStatus where
  | uploading
  | complete
  | failed
  | deleting
  deriving DecidableEq, Repr

/-- Why the server refuses a statement. -/
inductive StorageError where
  | notFound
  | foreignKey
  | uniqueViolation
  /-- One `ON CONFLICT DO UPDATE` met a row twice. -/
  | affectedTwice
  /-- The bounds of a range are in the wrong order. -/
  | rangeBounds
  deriving DecidableEq, Repr

/-- `UploadError`. -/
inductive UploadError where
  | conflict
  | invalid (message : String)
  | storage (e : StorageError)
  deriving DecidableEq, Repr

/-! ### Rows -/

/-- A row of `projects`, with the columns of the upload. -/
structure ProjectRow where
  id : ℤ
  projectName : Text
  rootPath : Text
  uploadStatus : UploadStatus
  symbolChunksTotal : Option ℤ
  objectChunksTotal : Option ℤ
  rootLayerId : ℤ
  deriving DecidableEq, Repr

/-- A row of `project_symbol_chunks` or of `project_object_chunks`: a chunk that has been
committed. -/
structure ProjectChunk where
  projectId : ℤ
  seq : ℤ
  deriving DecidableEq, Repr

/-- `NewSymbol`: a row of `symbols`, whose id the upload computes. -/
structure NewSymbol where
  id : ℤ
  name : Text
  symbolPath : Ltree
  projectId : ℤ
  symbolType : ℤ
  symbolScope : Option ℤ
  leafName : Text
  layer : ℤ
  deriving DecidableEq, Repr

/-- `NewObject`: the columns of `objects` that an upload sets. -/
structure NewObject where
  projectId : ℤ
  modulePath : Text
  filesystemPath : Text
  filetype : Text
  contentHash : Text
  layer : ℤ
  deriving DecidableEq, Repr

/-- A row of `objects`. -/
structure ObjectRow where
  id : ℤ
  row : NewObject
  deriving DecidableEq, Repr

/-- `NewContentStoreRow`. -/
structure NewContentStoreRow where
  contentHash : Text
  content : Bytes
  deriving DecidableEq, Repr

/-- `EphLayerKind`. -/
inductive EphLayerKind where
  | canary
  | ephemeral
  | root
  deriving DecidableEq, Repr

/-- `EphLayerKind::PROTECTED`: the kinds that garbage collection never touches. -/
def EphLayerKind.isProtected : EphLayerKind → Bool
  | .canary => true
  | .ephemeral => false
  | .root => true

/-- A row of `layers`. -/
structure LayerRow where
  id : ℤ
  parentId : Option ℤ
  baseId : Option ℤ
  hash : Bytes
  kind : EphLayerKind
  populated : Bool
  truncated : Bool
  deriving DecidableEq, Repr

/-! ### Tables -/

/-- The tables of the store.  The rows of ephemeral layers are not among its data rows. -/
structure Store where
  projects : List ProjectRow
  symbolChunks : List ProjectChunk
  objectChunks : List ProjectChunk
  symbols : List NewSymbol
  objects : List ObjectRow
  symbolInstances : List SymbolInstance
  symbolRefs : List SymbolRef
  contentStore : List NewContentStoreRow
  layers : List LayerRow
  nextProjectId : ℤ
  nextObjectId : ℤ
  nextInstanceId : ℤ
  nextRefId : ℤ
  nextRootLayerId : ℤ
  deriving DecidableEq, Repr

/-- The store after the migrations: the canary fixtures, and no data. -/
def Store.initial (canaryRootHash : Bytes) : Store where
  projects := [⟨-999999, "__canary__".toList, "/__canary__".toList, .complete, none, none, 2⟩]
  symbolChunks := []
  objectChunks := []
  symbols := []
  objects := []
  symbolInstances := []
  symbolRefs := []
  contentStore := []
  layers := [⟨-999999, none, none, [0, 99, 97, 110, 97, 114, 121], .canary, true, false⟩,
    ⟨2, none, none, canaryRootHash, .root, true, false⟩]
  nextProjectId := 1
  nextObjectId := 1
  nextInstanceId := 1
  nextRefId := 1
  nextRootLayerId := 3

/-- The rows that queries see: the persistent symbols, objects, instances and references. -/
structure PersistentRows where
  symbols : List NewSymbol
  objects : List ObjectRow
  symbolInstances : List SymbolInstance
  symbolRefs : List SymbolRef
  deriving DecidableEq, Repr

namespace Store

variable (s : Store)

/-- The persistent rows of the store. -/
def rows : PersistentRows := ⟨s.symbols, s.objects, s.symbolInstances, s.symbolRefs⟩

/-- The project of an id. -/
def findProject (projectId : ℤ) : Option ProjectRow := s.projects.find? (·.id == projectId)

/-- The layers that garbage collection may touch. -/
def ephemeralLayers : List LayerRow := s.layers.filter fun l => !l.kind.isProtected

/-- Keep the symbols that meet a condition; instances and references of the others go with
them. -/
def keepSymbols (p : NewSymbol → Bool) : Store :=
  let symbols := s.symbols.filter p
  { s with
    symbols := symbols
    symbolInstances := s.symbolInstances.filter fun i => symbols.any (·.id == i.symbol)
    symbolRefs := s.symbolRefs.filter fun r => symbols.any (·.id == r.toSymbol) }

/-- Keep the objects that meet a condition; instances and references in the others go with
them. -/
def keepObjects (p : ObjectRow → Bool) : Store :=
  let objects := s.objects.filter p
  { s with
    objects := objects
    symbolInstances := s.symbolInstances.filter fun i => objects.any (·.id == i.objectId)
    symbolRefs := s.symbolRefs.filter fun r => objects.any (·.id == r.fromObject) }

/-- Delete a row of `projects`: its chunks, symbols and objects cascade. -/
def deleteProjectRow (projectId : ℤ) : Store :=
  let s' := (s.keepSymbols (·.projectId != projectId)).keepObjects (·.row.projectId != projectId)
  { s' with
    projects := s.projects.filter (·.id != projectId)
    symbolChunks := s.symbolChunks.filter (·.projectId != projectId)
    objectChunks := s.objectChunks.filter (·.projectId != projectId) }

/-- Delete a root layer: the data rows on it cascade.  The ephemeral layers below it cascade
as well, and are left to the purge that follows every such deletion. -/
def deleteRootLayer (layerId : ℤ) : Store :=
  let s' := (s.keepSymbols (·.layer != layerId)).keepObjects (·.row.layer != layerId)
  { s' with
    symbolInstances := s'.symbolInstances.filter (·.layer != layerId)
    symbolRefs := s'.symbolRefs.filter (·.layer != layerId)
    layers := s.layers.filter (·.id != layerId) }

/-- `purge_eph_cache`, under its lock of `layers`. -/
def purgeEphCache : Store := { s with layers := s.layers.filter (·.kind.isProtected) }

variable {s}

@[simp] theorem ephemeralLayers_purgeEphCache : s.purgeEphCache.ephemeralLayers = [] := by
  simp only [ephemeralLayers, purgeEphCache, List.filter_filter, List.filter_eq_nil_iff]
  intro l _
  simp

@[simp] theorem purgeEphCache_rows : s.purgeEphCache.rows = s.rows := rfl

@[simp] theorem purgeEphCache_projects : s.purgeEphCache.projects = s.projects := rfl

@[simp] theorem purgeEphCache_symbolChunks : s.purgeEphCache.symbolChunks = s.symbolChunks := rfl

@[simp] theorem purgeEphCache_objectChunks : s.purgeEphCache.objectChunks = s.objectChunks := rfl

@[simp] theorem deleteProjectRow_projects (projectId : ℤ) :
    (s.deleteProjectRow projectId).projects = s.projects.filter (·.id != projectId) := rfl

@[simp] theorem deleteProjectRow_symbolChunks (projectId : ℤ) :
    (s.deleteProjectRow projectId).symbolChunks =
      s.symbolChunks.filter (·.projectId != projectId) := rfl

@[simp] theorem deleteProjectRow_objectChunks (projectId : ℤ) :
    (s.deleteProjectRow projectId).objectChunks =
      s.objectChunks.filter (·.projectId != projectId) := rfl

@[simp] theorem deleteProjectRow_nextProjectId (projectId : ℤ) :
    (s.deleteProjectRow projectId).nextProjectId = s.nextProjectId := rfl

@[simp] theorem deleteRootLayer_projects (layerId : ℤ) :
    (s.deleteRootLayer layerId).projects = s.projects := rfl

@[simp] theorem deleteRootLayer_symbolChunks (layerId : ℤ) :
    (s.deleteRootLayer layerId).symbolChunks = s.symbolChunks := rfl

@[simp] theorem deleteRootLayer_objectChunks (layerId : ℤ) :
    (s.deleteRootLayer layerId).objectChunks = s.objectChunks := rfl

@[simp] theorem deleteRootLayer_nextProjectId (layerId : ℤ) :
    (s.deleteRootLayer layerId).nextProjectId = s.nextProjectId := rfl

@[simp] theorem purgeEphCache_nextProjectId : s.purgeEphCache.nextProjectId = s.nextProjectId :=
  rfl

/-- The project of an id is one of the rows. -/
theorem findProject_eq_some {projectId : ℤ} {p : ProjectRow}
    (h : s.findProject projectId = some p) : p ∈ s.projects ∧ p.id = projectId :=
  ⟨List.mem_of_find?_eq_some h, by simpa using List.find?_some h⟩

end Store

end Askl
