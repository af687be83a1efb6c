import Askl.Library.Fallible
import Askl.Store.UploadRows

/-!
# The upload requests

The transactions of `index_store/upload.rs` and of `delete_project`, as functions of the
committed tables.  The row locks they take make each of them one step: a chunk holds its
project's row by the foreign key of its record, and finalising and resuming hold it for
update.  A deletion is two transactions, the first of which only marks the project.

## Main definitions

* `Committed` — what a transaction that commits leaves.
* `Store.createProject`, `Store.uploadSymbolChunk`, `Store.uploadObjectChunk`,
  `Store.uploadContents`, `Store.finalizeProject`, `Store.markDeleting`,
  `Store.deleteProject` — the transactions.
* `Request`, `Store.handle` — the requests, and the transaction each of them runs.
* `Store.SameUploads` — two states that agree on the projects and their chunks.
* `Store.Handled` — the ways through the transactions.

## Main results

* `Store.insertSymbols_frame`, `Store.doUploadObjects_stages` and their like — the tables an
  insert touches.
* `Store.handle_cases` — the ways through the transactions, from `Store.uploadIndex_cases`,
  `Store.finalizeProject_cases` and their like.
* `Store.ephemeralLayers_handle`, `Store.rows_handle` — what a transaction does to the layers and
  to the persistent rows.
-/

namespace Askl

/-- A transaction that commits: its result, the tables it leaves, and whether it has locked
the layers and purged the ephemeral ones. -/
structure Committed (α : Type) where
  value : α
  store : Store
  purged : Bool

/-- The lists of at most `size` rows that one statement inserts. -/
def chunks {α : Type} (size : ℕ) (rows : List α) : List (List α) :=
  (List.range ((rows.length + size - 1) / size)).map fun k => (rows.drop (k * size)).take size

/-- `MAX_INSERT_ROWS` and `MAX_SYMBOL_INSERT_ROWS`. -/
def maxInsertRows : ℕ := 1000

namespace Store

variable (hashBytes : Bytes → Text)

/-! ### Inserts -/

/-- Insert one symbol, whose id is the primary key. -/
def insertSymbol (s : Store) (row : NewSymbol) : Except UploadError Store :=
  if s.symbols.any (·.id == row.id) then .error (.storage .uniqueViolation)
  else .ok { s with symbols := s.symbols ++ [row] }

/-- Insert one content, unless its hash is there. -/
def insertContent (s : Store) (row : NewContentStoreRow) : Store :=
  if s.contentStore.any (·.contentHash == row.contentHash) then s
  else { s with contentStore := s.contentStore ++ [row] }

/-- `ON CONFLICT (project_id, filesystem_path) DO UPDATE`: insert one object or overwrite the
columns of the one with its path, and enter its id under its local id. -/
def upsertObject (s : Store × ObjectMap) (entry : ObjectInsert) : Store × ObjectMap :=
  match s.1.objects.find? fun o => o.row.projectId == entry.row.projectId &&
      o.row.filesystemPath == entry.row.filesystemPath with
  | some old =>
    ({ s.1 with objects := s.1.objects.map fun o =>
        if o.id = old.id then { o with row := entry.row } else o },
      (entry.localId, old.id) :: s.2)
  | none =>
    ({ s.1 with
        objects := s.1.objects ++ [⟨s.1.nextObjectId, entry.row⟩]
        nextObjectId := s.1.nextObjectId + 1 },
      (entry.localId, s.1.nextObjectId) :: s.2)

/-- One statement of `insert_objects`, and the contents its rows bring along. -/
def insertObjectRows (s : Store × ObjectMap) (rows : List ObjectInsert) :
    Except UploadError (Store × ObjectMap) :=
  if (rows.map fun e => (e.row.projectId, e.row.filesystemPath)).Nodup then
    let s' := rows.foldl upsertObject s
    let contents := rows.filterMap fun e => e.content.map fun c => ⟨e.row.contentHash, c⟩
    .ok (contents.foldl insertContent s'.1, s'.2)
  else .error (.storage .affectedTwice)

/-- `insert_objects`. -/
def insertObjects (s : Store) (inserts : List ObjectInsert) :
    Except UploadError (Store × ObjectMap) :=
  (chunks maxInsertRows inserts).foldlM insertObjectRows (s, [])

/-- Insert one instance, unless it is there. -/
def insertSymbolInstance (s : Store) (row : NewSymbolInstance) : Except UploadError Store :=
  match Int4range.of row.startOffset row.endOffset with
  | none => .error (.storage .rangeBounds)
  | some range =>
    if s.symbolInstances.any fun i => i.symbol == row.symbol && i.objectId == row.objectId &&
        i.offsetRange == range && i.layer == row.layer then .ok s
    else if !(s.symbols.any (·.id == row.symbol)) then .error (.storage .foreignKey)
    else .ok
      { s with
        symbolInstances := s.symbolInstances ++
          [⟨s.nextInstanceId, row.symbol, row.objectId, range, row.instanceType, row.layer⟩]
        nextInstanceId := s.nextInstanceId + 1 }

/-- Insert one reference, unless it is there. -/
def insertSymbolRef (s : Store) (row : NewSymbolRef) : Except UploadError Store :=
  match Int4range.of row.fromOffsetStart row.fromOffsetEnd with
  | none => .error (.storage .rangeBounds)
  | some range =>
    if s.symbolRefs.any fun r => r.toSymbol == row.toSymbol && r.fromObject == row.fromObject &&
        r.fromOffsetRange == range && r.layer == row.layer then .ok s
    else if !(s.symbols.any (·.id == row.toSymbol)) then .error (.storage .foreignKey)
    else .ok
      { s with
        symbolRefs := s.symbolRefs ++ [⟨s.nextRefId, row.toSymbol, row.fromObject, range, row.layer⟩]
        nextRefId := s.nextRefId + 1 }

/-! ### Chunks -/

/-- `root_layer_of`. -/
def rootLayerOf (s : Store) (projectId : ℤ) : Except UploadError ℤ :=
  match s.findProject projectId with
  | none => .error (.storage .notFound)
  | some p => .ok p.rootLayerId

/-- The hashes that objects without content name and the content store does not hold. -/
def missingHashes (s : Store) (inserts : List ObjectInsert) : List Text :=
  ((inserts.filter fun e => e.content.isNone && !e.row.contentHash.isEmpty).map
    (·.row.contentHash)).eraseDups.filter fun h => !s.contentStore.any (·.contentHash == h)

/-- The message about contents that are missing. -/
def missingMessage (missing : List Text) : String :=
  let count := missing.length
  let joined := String.ofList ([',', ' '].intercalate missing)
  s!"missing content for {count} hash(es): {joined}"

/-- `do_upload_objects`. -/
def doUploadObjects (s : Store) (projectId : ℤ) (upload : UploadProject) :
    Except UploadError Store := do
  let rootLayerId ← s.rootLayerOf projectId
  let inserts ← buildObjects hashBytes projectId rootLayerId upload.objects
  if (s.missingHashes inserts).isEmpty then do
    let inserted ← s.insertObjects inserts
    let instances ← buildSymbolInstances projectId rootLayerId inserted.2 upload.objects
    let s₁ ← instances.foldlM insertSymbolInstance inserted.1
    let refs ← buildSymbolRefs projectId rootLayerId inserted.2 upload.objects
    refs.foldlM insertSymbolRef s₁
  else .error (.invalid (missingMessage (s.missingHashes inserts)))

/-- `build_symbols` and the inserts of `upload_symbol_chunk`. -/
def insertSymbols (s : Store) (projectId : ℤ) (symbols : List UploadSymbol) :
    Except UploadError Store := do
  let rootLayerId ← s.rootLayerOf projectId
  let rows ← buildSymbols projectId rootLayerId symbols
  rows.foldlM insertSymbol s

/-- Claim the slot of a symbol chunk. -/
def recordSymbolChunk (s : Store) (projectId seq : ℤ) : Store :=
  { s with symbolChunks := s.symbolChunks ++ [⟨projectId, seq⟩] }

/-- Claim the slot of an object chunk. -/
def recordObjectChunk (s : Store) (projectId seq : ℤ) : Store :=
  { s with objectChunks := s.objectChunks ++ [⟨projectId, seq⟩] }

/-- `upload_symbol_chunk`, behind its handler.  A chunk that has been committed is not
inserted again; the record of a new one needs its project. -/
def uploadSymbolChunk (s : Store) (projectId seq : ℤ) (upload : UploadProject) :
    Except UploadError (Committed Unit) :=
  if !upload.objects.isEmpty then .error (.invalid
    "objects must be uploaded via POST /v1/index/projects/\x7bid\x7d/objects")
  else if s.symbolChunks.contains ⟨projectId, seq⟩ then .ok ⟨(), s, false⟩
  else if (s.findProject projectId).isNone then .error (.storage .foreignKey)
  else do
    let s' ← (s.recordSymbolChunk projectId seq).insertSymbols projectId upload.symbols
    pure ⟨(), s', false⟩

/-- `upload_object_chunk`. -/
def uploadObjectChunk (s : Store) (projectId seq : ℤ) (upload : UploadProject) :
    Except UploadError (Committed Unit) :=
  if !upload.symbols.isEmpty then
    .error (.invalid "symbols must be uploaded in phase 1 (header) only")
  else if s.objectChunks.contains ⟨projectId, seq⟩ then .ok ⟨(), s, false⟩
  else if (s.findProject projectId).isNone then .error (.storage .foreignKey)
  else do
    let s' ← (s.recordObjectChunk projectId seq).doUploadObjects hashBytes projectId upload
    pure ⟨(), s', false⟩

/-- The check of one entry of a content batch; its hash is compared trimmed. -/
def checkContent (entry : ObjectContent) : Except UploadError NewContentStoreRow :=
  let hashTrimmed := trim entry.contentHash
  if hashTrimmed.isEmpty then .error (.invalid "content_hash is required on ObjectContent")
  else if hashBytes entry.content ≠ hashTrimmed then
    let expected := String.ofList entry.contentHash
    let found := String.ofList (hashBytes entry.content)
    .error (.invalid s!"content_hash mismatch: expected {expected}, got {found}")
  else .ok ⟨entry.contentHash, entry.content⟩

/-- `upload_contents`: the number of new entries. -/
def uploadContents (s : Store) (contents : List ObjectContent) :
    Except UploadError (Committed ℕ) := do
  let rows ← contents.mapM (checkContent hashBytes)
  let s' := rows.foldl insertContent s
  pure ⟨s'.contentStore.length - s.contentStore.length, s', false⟩

/-! ### Projects -/

/-- The text of a total in a message. -/
def debugTotal : Option ℤ → String
  | none => "None"
  | some n => s!"Some({n})"

/-- Insert a project with its root layer. -/
def insertProject (s : Store) (projectName rootPath : Text)
    (symbolChunksTotal objectChunksTotal : Option ℤ) (rootHash : Bytes) :
    Except UploadError (ℤ × Store) :=
  if s.layers.any (·.hash == rootHash) then .error (.storage .uniqueViolation)
  else .ok (s.nextProjectId,
    { s with
      layers := s.layers ++ [⟨s.nextRootLayerId, none, none, rootHash, .root, true, false⟩]
      nextRootLayerId := s.nextRootLayerId + 1
      projects := s.projects ++ [⟨s.nextProjectId, projectName, rootPath, .uploading,
        symbolChunksTotal, objectChunksTotal, s.nextRootLayerId⟩]
      nextProjectId := s.nextProjectId + 1 })

/-- `create_project`: resume, replace or refuse the project of the name, or create it.  The
hash of a new root layer is drawn at random. -/
def createProject (s : Store) (projectName rootPath : Text)
    (symbolChunksTotal objectChunksTotal : Option ℤ) (rootHash : Bytes) :
    Except UploadError (Committed (ℤ × Bool)) :=
  match s.projects.find? (·.projectName == projectName) with
  | none => do
    let created ← s.insertProject projectName rootPath symbolChunksTotal objectChunksTotal rootHash
    pure ⟨(created.1, false), created.2, false⟩
  | some existing => match existing.uploadStatus with
    | .uploading =>
      if existing.symbolChunksTotal ≠ symbolChunksTotal then
        let name := String.ofList projectName
        let stored := debugTotal existing.symbolChunksTotal
        let requested := debugTotal symbolChunksTotal
        .error (.invalid (s!"Project '{name}' already exists with different chunk counts " ++
          s!"(stored symbol_chunks_total={stored} vs requested {requested}). " ++
          "Re-run with --force to replace it."))
      else .ok ⟨(existing.id, true), s, false⟩
    | .complete => .error .conflict
    | _ => do
      let s' := ((s.deleteProjectRow existing.id).deleteRootLayer existing.rootLayerId).purgeEphCache
      let created ← s'.insertProject projectName rootPath symbolChunksTotal objectChunksTotal
        rootHash
      pure ⟨(created.1, false), created.2, true⟩

/-- `upload_index`: the id of the project, and whether an upload of it is resumed. -/
def uploadIndex (s : Store) (upload : UploadProject)
    (symbolChunksTotal objectChunksTotal : Option ℤ) (rootHash : Bytes) :
    Except UploadError (Committed (ℤ × Bool)) :=
  let projectName := trim upload.projectName
  let rootPath := trim upload.rootPath
  if !upload.symbols.isEmpty then .error (.invalid
    "symbols must be uploaded via POST /v1/index/projects/\x7bid\x7d/symbols")
  else if projectName.isEmpty then .error (.invalid "project_name is required")
  else if rootPath.isEmpty then .error (.invalid "root_path is required")
  else if rootPath.head? ≠ some '/' then
    .error (.invalid "root_path must be an absolute path")
  else s.createProject projectName rootPath symbolChunksTotal objectChunksTotal rootHash

/-- The number of chunks committed for a project. -/
def committedChunks (rows : List ProjectChunk) (projectId : ℤ) : ℕ :=
  (rows.filter (·.projectId == projectId)).length

/-- The check of one total; a project without it predates chunked uploads. -/
def checkTotal (what : String) (total : Option ℤ) (committed : ℕ) : Except UploadError Unit :=
  match total with
  | none => .ok ()
  | some total =>
    if (committed : ℤ) ≠ total then
      .error (.invalid s!"{committed}/{total} {what} chunks committed — upload incomplete")
    else .ok ()

/-- Set the status of a project. -/
def setStatus (s : Store) (projectId : ℤ) (status : UploadStatus) : Store :=
  { s with projects := s.projects.map fun p =>
      if p.id = projectId then { p with uploadStatus := status } else p }

/-- `finalize_project`: whether there is such a project. -/
def finalizeProject (s : Store) (projectId : ℤ) : Except UploadError (Committed Bool) :=
  match s.findProject projectId with
  | none => .ok ⟨false, s, false⟩
  | some p => match p.uploadStatus with
    | .complete => .ok ⟨true, s, false⟩
    | .uploading => do
      checkTotal "symbol" p.symbolChunksTotal (committedChunks s.symbolChunks projectId)
      checkTotal "object" p.objectChunksTotal (committedChunks s.objectChunks projectId)
      pure ⟨true, (s.setStatus projectId .complete).purgeEphCache, true⟩
    | _ => .error .conflict

/-- The first transaction of `delete_project`: whether there is such a project.  The fixtures,
whose ids are negative, are not deleted. -/
def markDeleting (s : Store) (projectId : ℤ) : Committed Bool :=
  if 0 < projectId ∧ (s.findProject projectId).isSome then
    ⟨true, s.setStatus projectId .deleting, false⟩
  else ⟨false, s, false⟩

/-- Delete the rows whose symbol is in the range of ids of a project. -/
def deleteSymbolRange (s : Store) (projectId : ℤ) : Store :=
  let inRange := fun id => decide (projectSymbolIdBase projectId ≤ id ∧
    id < projectSymbolIdBase (projectId + 1))
  { s with
    symbolRefs := s.symbolRefs.filter fun r => !inRange r.toSymbol
    symbolInstances := s.symbolInstances.filter fun i => !inRange i.symbol }

/-- The second transaction of `delete_project`. -/
def deleteProject (s : Store) (projectId : ℤ) : Committed Unit :=
  let s₁ := s.deleteSymbolRange projectId
  let s₂ := (s₁.keepSymbols (·.projectId != projectId)).keepObjects (·.row.projectId != projectId)
  let s₃ := s₂.deleteProjectRow projectId
  let s₄ := match s.findProject projectId with
    | none => s₃
    | some p => s₃.deleteRootLayer p.rootLayerId
  ⟨(), s₄.purgeEphCache, true⟩

end Store

/-! ### Requests -/

/-- A request, or the second transaction of one. -/
inductive Request where
  | uploadIndex (upload : UploadProject) (symbolChunksTotal objectChunksTotal : Option ℤ)
      (rootHash : Bytes)
  | symbolChunk (projectId seq : ℤ) (upload : UploadProject)
  | objectChunk (projectId seq : ℤ) (upload : UploadProject)
  | contents (contents : List ObjectContent)
  | finalize (projectId : ℤ)
  | markDeleting (projectId : ℤ)
  | deleteProject (projectId : ℤ)
  deriving DecidableEq, Repr

/-- What a request is answered with. -/
inductive Response where
  | project (id : ℤ) (resumed : Bool)
  | committed
  | newEntries (count : ℕ)
  | found (found : Bool)
  deriving DecidableEq, Repr

/-- The answer of a transaction. -/
def Committed.answer {α : Type} (c : Committed α) (f : α → Response) : Committed Response :=
  ⟨f c.value, c.store, c.purged⟩

/-- The transaction of a request. -/
def Store.handle (hashBytes : Bytes → Text) (s : Store) :
    Request → Except UploadError (Committed Response)
  | .uploadIndex upload symbolChunksTotal objectChunksTotal rootHash =>
    (s.uploadIndex upload symbolChunksTotal objectChunksTotal rootHash).map
      (·.answer fun r => .project r.1 r.2)
  | .symbolChunk projectId seq upload =>
    (s.uploadSymbolChunk projectId seq upload).map (·.answer fun _ => .committed)
  | .objectChunk projectId seq upload =>
    (s.uploadObjectChunk hashBytes projectId seq upload).map (·.answer fun _ => .committed)
  | .contents contents => (s.uploadContents hashBytes contents).map (·.answer .newEntries)
  | .finalize projectId => (s.finalizeProject projectId).map (·.answer .found)
  | .markDeleting projectId => .ok ((s.markDeleting projectId).answer .found)
  | .deleteProject projectId => .ok ((s.deleteProject projectId).answer fun _ => .committed)

namespace Store

variable {hashBytes : Bytes → Text} {s : Store}

/-! ### What the inserts leave alone -/

/-- Two states that agree on the projects, their chunks and the layers. -/
structure SameUploads (s s' : Store) : Prop where
  projects : s'.projects = s.projects
  symbolChunks : s'.symbolChunks = s.symbolChunks
  objectChunks : s'.objectChunks = s.objectChunks
  layers : s'.layers = s.layers
  nextProjectId : s'.nextProjectId = s.nextProjectId

theorem SameUploads.refl (s : Store) : SameUploads s s := ⟨rfl, rfl, rfl, rfl, rfl⟩

/-- Contents go to their own table. -/
theorem insertContents_eq (s : Store) (rows : List NewContentStoreRow) :
    ∃ contentStore, rows.foldl insertContent s = { s with contentStore := contentStore } := by
  induction rows generalizing s with
  | nil => exact ⟨s.contentStore, rfl⟩
  | cons row rows ih =>
    obtain ⟨contentStore, h⟩ := ih (s.insertContent row)
    refine ⟨contentStore, ?_⟩
    rw [List.foldl_cons, h]
    unfold insertContent
    split <;> rfl

/-- Symbols go to their own table. -/
theorem insertSymbols_frame {s s' : Store} {projectId : ℤ} {symbols : List UploadSymbol}
    (h : s.insertSymbols projectId symbols = .ok s') :
    ∃ rows, s' = { s with symbols := rows } := by
  obtain ⟨root, -, h⟩ := Fallible.bind_eq_ok.mp h
  obtain ⟨rows, -, h⟩ := Fallible.bind_eq_ok.mp h
  refine Fallible.invariant_of_foldlM (I := fun x => ∃ rows, x = { s with symbols := rows })
    (fun row _ => ?_) h ⟨s.symbols, rfl⟩
  rintro _ x ⟨rows, rfl⟩ hx
  unfold insertSymbol at hx
  split at hx
  · cases hx
  · exact ⟨_, (Except.ok.inj hx).symm⟩

/-- Objects go to their own table, with the ids they are given. -/
theorem upsertObjects_frame (c : Store × ObjectMap) (rows : List ObjectInsert) :
    ∃ objects nextObjectId, (rows.foldl upsertObject c).1 =
      { c.1 with objects := objects, nextObjectId := nextObjectId } := by
  induction rows generalizing c with
  | nil => exact ⟨c.1.objects, c.1.nextObjectId, rfl⟩
  | cons row rows ih =>
    obtain ⟨objects, nextObjectId, h⟩ := ih (upsertObject c row)
    refine ⟨objects, nextObjectId, ?_⟩
    rw [List.foldl_cons, h]
    unfold upsertObject
    split <;> rfl

/-- The objects of a chunk bring contents along. -/
theorem insertObjects_frame {s : Store} {inserts : List ObjectInsert}
    {inserted : Store × ObjectMap} (h : s.insertObjects inserts = .ok inserted) :
    ∃ objects nextObjectId contentStore, inserted.1 =
      { s with objects := objects, nextObjectId := nextObjectId, contentStore := contentStore } := by
  refine Fallible.invariant_of_foldlM (I := fun c : Store × ObjectMap =>
    ∃ objects nextObjectId contentStore, c.1 =
      { s with objects := objects, nextObjectId := nextObjectId, contentStore := contentStore })
    (fun statement _ => ?_) h ⟨s.objects, s.nextObjectId, s.contentStore, rfl⟩
  rintro c c' ⟨objects, nextObjectId, contentStore, hc⟩ hc'
  unfold insertObjectRows at hc'
  split at hc'
  · obtain rfl := Except.ok.inj hc'
    obtain ⟨objects', nextObjectId', hobjects⟩ := upsertObjects_frame c statement
    obtain ⟨contentStore', hcontents⟩ := insertContents_eq (statement.foldl upsertObject c).1
      (statement.filterMap fun e => e.content.map fun content => ⟨e.row.contentHash, content⟩)
    refine ⟨objects', nextObjectId', contentStore', hcontents.trans ?_⟩
    rw [hobjects, hc]
  · cases hc'

/-- Instances go to their own table. -/
theorem insertSymbolInstances_frame {s s' : Store} {rows : List NewSymbolInstance}
    (h : rows.foldlM insertSymbolInstance s = .ok s') :
    ∃ symbolInstances nextInstanceId, s' =
      { s with symbolInstances := symbolInstances, nextInstanceId := nextInstanceId } := by
  refine Fallible.invariant_of_foldlM (I := fun x => ∃ symbolInstances nextInstanceId,
    x = { s with symbolInstances := symbolInstances, nextInstanceId := nextInstanceId })
    (fun row _ => ?_) h ⟨s.symbolInstances, s.nextInstanceId, rfl⟩
  rintro _ x ⟨symbolInstances, nextInstanceId, rfl⟩ hx
  unfold insertSymbolInstance at hx
  split at hx
  · cases hx
  · split at hx
    · exact ⟨symbolInstances, nextInstanceId, (Except.ok.inj hx).symm⟩
    · split at hx
      · cases hx
      · exact ⟨_, _, (Except.ok.inj hx).symm⟩

/-- References go to their own table. -/
theorem insertSymbolRefs_frame {s s' : Store} {rows : List NewSymbolRef}
    (h : rows.foldlM insertSymbolRef s = .ok s') :
    ∃ symbolRefs nextRefId, s' = { s with symbolRefs := symbolRefs, nextRefId := nextRefId } := by
  refine Fallible.invariant_of_foldlM (I := fun x => ∃ symbolRefs nextRefId,
    x = { s with symbolRefs := symbolRefs, nextRefId := nextRefId })
    (fun row _ => ?_) h ⟨s.symbolRefs, s.nextRefId, rfl⟩
  rintro _ x ⟨symbolRefs, nextRefId, rfl⟩ hx
  unfold insertSymbolRef at hx
  split at hx
  · cases hx
  · split at hx
    · exact ⟨symbolRefs, nextRefId, (Except.ok.inj hx).symm⟩
    · split at hx
      · cases hx
      · exact ⟨_, _, (Except.ok.inj hx).symm⟩

/-- The stages of an object chunk: its objects, and then its instances and references. -/
theorem doUploadObjects_stages {s s' : Store} {projectId : ℤ} {upload : UploadProject}
    (h : s.doUploadObjects hashBytes projectId upload = .ok s') :
    ∃ rootLayerId inserts inserted, s.rootLayerOf projectId = .ok rootLayerId ∧
      buildObjects hashBytes projectId rootLayerId upload.objects = .ok inserts ∧
      (s.missingHashes inserts).isEmpty = true ∧ s.insertObjects inserts = .ok inserted ∧
      ∃ symbolInstances nextInstanceId symbolRefs nextRefId, s' =
        { inserted.1 with
          symbolInstances := symbolInstances
          nextInstanceId := nextInstanceId
          symbolRefs := symbolRefs
          nextRefId := nextRefId } := by
  obtain ⟨rootLayerId, hroot, h⟩ := Fallible.bind_eq_ok.mp h
  obtain ⟨inserts, hinserts, h⟩ := Fallible.bind_eq_ok.mp h
  split at h
  · next hmissing =>
    obtain ⟨inserted, hinserted, h⟩ := Fallible.bind_eq_ok.mp h
    obtain ⟨instances, -, h⟩ := Fallible.bind_eq_ok.mp h
    obtain ⟨s₁, hs₁, h⟩ := Fallible.bind_eq_ok.mp h
    obtain ⟨refs, -, h⟩ := Fallible.bind_eq_ok.mp h
    obtain ⟨symbolInstances, nextInstanceId, rfl⟩ := insertSymbolInstances_frame hs₁
    obtain ⟨symbolRefs, nextRefId, rfl⟩ := insertSymbolRefs_frame h
    exact ⟨rootLayerId, inserts, inserted, hroot, hinserts, hmissing, hinserted, symbolInstances,
      nextInstanceId, symbolRefs, nextRefId, rfl⟩
  · cases h

theorem sameUploads_insertSymbols {s s' : Store} {projectId : ℤ} {symbols : List UploadSymbol}
    (h : s.insertSymbols projectId symbols = .ok s') : SameUploads s s' := by
  obtain ⟨rows, rfl⟩ := insertSymbols_frame h
  exact ⟨rfl, rfl, rfl, rfl, rfl⟩

theorem sameUploads_doUploadObjects {s s' : Store} {projectId : ℤ} {upload : UploadProject}
    (h : s.doUploadObjects hashBytes projectId upload = .ok s') : SameUploads s s' := by
  obtain ⟨_, _, inserted, -, -, -, hinserted, _, _, _, _, rfl⟩ := doUploadObjects_stages h
  obtain ⟨objects, nextObjectId, contentStore, hobjects⟩ := insertObjects_frame hinserted
  rw [hobjects]
  exact ⟨rfl, rfl, rfl, rfl, rfl⟩

theorem sameUploads_insertContents (s : Store) (rows : List NewContentStoreRow) :
    SameUploads s (rows.foldl insertContent s) := by
  obtain ⟨contentStore, hcontents⟩ := insertContents_eq s rows
  rw [hcontents]
  exact ⟨rfl, rfl, rfl, rfl, rfl⟩

/-! ### What the transactions do -/

/-- A symbol chunk is committed already, or its project exists and takes up its record and
its symbols. -/
theorem uploadSymbolChunk_cases {projectId seq : ℤ} {upload : UploadProject}
    {c : Committed Unit} (h : s.uploadSymbolChunk projectId seq upload = .ok c) :
    c.purged = false ∧ ((⟨projectId, seq⟩ ∈ s.symbolChunks ∧ c.store = s) ∨
      (⟨projectId, seq⟩ ∉ s.symbolChunks ∧ (s.findProject projectId).isSome = true ∧
        (s.recordSymbolChunk projectId seq).insertSymbols projectId upload.symbols =
          .ok c.store)) := by
  unfold uploadSymbolChunk at h
  split at h
  · cases h
  · split at h
    · next hmem =>
      obtain rfl := Except.ok.inj h
      exact ⟨rfl, Or.inl ⟨by simpa using hmem, rfl⟩⟩
    · next hmem =>
      split at h
      · cases h
      · next hproject =>
        obtain ⟨s', hs', h⟩ := Fallible.bind_eq_ok.mp h
        obtain rfl := Except.ok.inj h
        exact ⟨rfl, Or.inr ⟨by simpa using hmem, by simpa [Option.isSome_iff_ne_none] using hproject,
          hs'⟩⟩

/-- An object chunk is committed already, or its project exists and takes up its record and
its objects. -/
theorem uploadObjectChunk_cases {projectId seq : ℤ} {upload : UploadProject}
    {c : Committed Unit} (h : s.uploadObjectChunk hashBytes projectId seq upload = .ok c) :
    c.purged = false ∧ ((⟨projectId, seq⟩ ∈ s.objectChunks ∧ c.store = s) ∨
      (⟨projectId, seq⟩ ∉ s.objectChunks ∧ (s.findProject projectId).isSome = true ∧
        (s.recordObjectChunk projectId seq).doUploadObjects hashBytes projectId upload =
          .ok c.store)) := by
  unfold uploadObjectChunk at h
  split at h
  · cases h
  · split at h
    · next hmem =>
      obtain rfl := Except.ok.inj h
      exact ⟨rfl, Or.inl ⟨by simpa using hmem, rfl⟩⟩
    · next hmem =>
      split at h
      · cases h
      · next hproject =>
        obtain ⟨s', hs', h⟩ := Fallible.bind_eq_ok.mp h
        obtain rfl := Except.ok.inj h
        exact ⟨rfl, Or.inr ⟨by simpa using hmem, by simpa [Option.isSome_iff_ne_none] using hproject,
          hs'⟩⟩

/-- A new project goes to the tables of projects and layers. -/
theorem insertProject_frame {projectName rootPath : Text} {symbolTotal objectTotal : Option ℤ}
    {rootHash : Bytes} {created : ℤ × Store}
    (h : s.insertProject projectName rootPath symbolTotal objectTotal rootHash = .ok created) :
    ∃ layers nextRootLayerId projects nextProjectId, created.2 = { s with
      layers := layers, nextRootLayerId := nextRootLayerId
      projects := projects, nextProjectId := nextProjectId } := by
  unfold insertProject at h
  split at h
  · cases h
  · obtain rfl := Except.ok.inj h
    exact ⟨_, _, _, _, rfl⟩

/-- A new project gets the next id and a root layer of its own. -/
theorem insertProject_ok {projectName rootPath : Text} {symbolTotal objectTotal : Option ℤ}
    {rootHash : Bytes} {created : ℤ × Store}
    (h : s.insertProject projectName rootPath symbolTotal objectTotal rootHash = .ok created) :
    created.1 = s.nextProjectId ∧ created.2.nextProjectId = s.nextProjectId + 1 ∧
      created.2.projects = s.projects ++ [⟨s.nextProjectId, projectName, rootPath, .uploading,
        symbolTotal, objectTotal, s.nextRootLayerId⟩] ∧
      created.2.symbolChunks = s.symbolChunks ∧ created.2.objectChunks = s.objectChunks ∧
      created.2.ephemeralLayers = s.ephemeralLayers ∧ created.2.rows = s.rows := by
  unfold insertProject at h
  split at h
  · cases h
  · obtain rfl := Except.ok.inj h
    exact ⟨rfl, rfl, rfl, rfl, rfl, by simp [ephemeralLayers, EphLayerKind.isProtected], rfl⟩

/-- The state in which a new project is created: as it is, or without the project that was
failed or being deleted under its name. -/
def Cleared (s s' : Store) (purged : Bool) : Prop :=
  (s' = s ∧ purged = false) ∨ ∃ z ∈ s.projects, z.uploadStatus ≠ .uploading ∧ purged = true ∧
    s' = ((s.deleteProjectRow z.id).deleteRootLayer z.rootLayerId).purgeEphCache

/-- A project is resumed with the symbol total it was created with, or created. -/
theorem uploadIndex_cases {upload : UploadProject} {symbolTotal objectTotal : Option ℤ}
    {rootHash : Bytes} {c : Committed (ℤ × Bool)}
    (h : s.uploadIndex upload symbolTotal objectTotal rootHash = .ok c) :
    (∃ p, s.projects.find? (·.projectName == trim upload.projectName) = some p ∧
      p.uploadStatus = .uploading ∧ p.symbolChunksTotal = symbolTotal ∧
      c = ⟨(p.id, true), s, false⟩) ∨
    ∃ s' created, Cleared s s' c.purged ∧ s'.insertProject (trim upload.projectName)
        (trim upload.rootPath) symbolTotal objectTotal rootHash = .ok created ∧
      c.value = (created.1, false) ∧ c.store = created.2 := by
  unfold uploadIndex at h
  simp only at h
  split at h
  · cases h
  split at h
  · cases h
  split at h
  · cases h
  split at h
  · cases h
  unfold createProject at h
  split at h
  · obtain ⟨created, hcreated, h⟩ := Fallible.bind_eq_ok.mp h
    obtain rfl := Except.ok.inj h
    exact Or.inr ⟨s, created, Or.inl ⟨rfl, rfl⟩, hcreated, rfl, rfl⟩
  · next existing hfind =>
    have hmem := List.mem_of_find?_eq_some hfind
    split at h
    · next hstatus =>
      split at h
      · cases h
      · next htotal =>
        obtain rfl := Except.ok.inj h
        exact Or.inl ⟨existing, hfind, hstatus, not_not.mp htotal, rfl⟩
    · cases h
    · next hstatus _ =>
      obtain ⟨created, hcreated, h⟩ := Fallible.bind_eq_ok.mp h
      obtain rfl := Except.ok.inj h
      exact Or.inr ⟨_, created, Or.inr ⟨existing, hmem, hstatus, rfl, rfl⟩, hcreated, rfl, rfl⟩

/-- The totals a project declares are the numbers of its chunks. -/
theorem checkTotal_eq_ok {what : String} {total : Option ℤ} {committed : ℕ}
    (h : checkTotal what total committed = .ok ()) : ∀ n, total = some n → (committed : ℤ) = n := by
  rintro n rfl
  unfold checkTotal at h
  by_contra hne
  simp [hne] at h

/-- A project is completed when it was uploading, and as many chunks as it declares are
committed. -/
theorem finalizeProject_cases {projectId : ℤ} {c : Committed Bool}
    (h : s.finalizeProject projectId = .ok c) :
    (c.purged = false ∧ c.store = s) ∨
    ∃ p, s.findProject projectId = some p ∧ p.uploadStatus = .uploading ∧
      (∀ n, p.symbolChunksTotal = some n → (committedChunks s.symbolChunks projectId : ℤ) = n) ∧
      (∀ n, p.objectChunksTotal = some n → (committedChunks s.objectChunks projectId : ℤ) = n) ∧
      c = ⟨true, (s.setStatus projectId .complete).purgeEphCache, true⟩ := by
  unfold finalizeProject at h
  split at h
  · obtain rfl := Except.ok.inj h
    exact Or.inl ⟨rfl, rfl⟩
  · next p hp =>
    split at h
    · obtain rfl := Except.ok.inj h
      exact Or.inl ⟨rfl, rfl⟩
    · next hstatus =>
      obtain ⟨⟨⟩, hsymbols, h⟩ := Fallible.bind_eq_ok.mp h
      obtain ⟨⟨⟩, hobjects, h⟩ := Fallible.bind_eq_ok.mp h
      obtain rfl := Except.ok.inj h
      exact Or.inr ⟨p, hp, hstatus, checkTotal_eq_ok hsymbols, checkTotal_eq_ok hobjects, rfl⟩
    · cases h

/-- A deletion takes the project and its chunks away. -/
theorem deleteProject_eq (s : Store) (projectId : ℤ) :
    (s.deleteProject projectId).store.projects = s.projects.filter (·.id != projectId) ∧
      (s.deleteProject projectId).store.symbolChunks =
        s.symbolChunks.filter (·.projectId != projectId) ∧
      (s.deleteProject projectId).store.objectChunks =
        s.objectChunks.filter (·.projectId != projectId) ∧
      (s.deleteProject projectId).store.nextProjectId = s.nextProjectId := by
  unfold deleteProject
  cases s.findProject projectId <;> exact ⟨rfl, rfl, rfl, rfl⟩

/-- The ways through a transaction: the answer, the state it leaves and whether it has purged
the cache. -/
inductive Handled (hashBytes : Bytes → Text) (s : Store) : Request → Committed Response → Prop
  /-- The upload of a project goes on. -/
  | resumed {upload : UploadProject} {symbolTotal objectTotal : Option ℤ} {rootHash : Bytes}
      {p : ProjectRow} (hfind : s.projects.find? (·.projectName == trim upload.projectName) = some p)
      (hstatus : p.uploadStatus = .uploading) (htotal : p.symbolChunksTotal = symbolTotal) :
      Handled hashBytes s (.uploadIndex upload symbolTotal objectTotal rootHash)
        ⟨.project p.id true, s, false⟩
  /-- A project is new, or replaces the one that was failed or being deleted. -/
  | created {upload : UploadProject} {symbolTotal objectTotal : Option ℤ} {rootHash : Bytes}
      {s' : Store} {created : ℤ × Store} {purged : Bool} (hcleared : Cleared s s' purged)
      (hcreated : s'.insertProject (trim upload.projectName) (trim upload.rootPath) symbolTotal
        objectTotal rootHash = .ok created) :
      Handled hashBytes s (.uploadIndex upload symbolTotal objectTotal rootHash)
        ⟨.project created.1 false, created.2, purged⟩
  /-- A symbol chunk that was committed before. -/
  | symbolChunkAgain {projectId seq : ℤ} {upload : UploadProject} :
      Handled hashBytes s (.symbolChunk projectId seq upload) ⟨.committed, s, false⟩
  | symbolChunk {projectId seq : ℤ} {upload : UploadProject} {s' : Store}
      (hnew : ⟨projectId, seq⟩ ∉ s.symbolChunks)
      (hproject : (s.findProject projectId).isSome = true)
      (hinsert : (s.recordSymbolChunk projectId seq).insertSymbols projectId upload.symbols =
        .ok s') :
      Handled hashBytes s (.symbolChunk projectId seq upload) ⟨.committed, s', false⟩
  /-- An object chunk that was committed before. -/
  | objectChunkAgain {projectId seq : ℤ} {upload : UploadProject} :
      Handled hashBytes s (.objectChunk projectId seq upload) ⟨.committed, s, false⟩
  | objectChunk {projectId seq : ℤ} {upload : UploadProject} {s' : Store}
      (hnew : ⟨projectId, seq⟩ ∉ s.objectChunks)
      (hproject : (s.findProject projectId).isSome = true)
      (hinsert : (s.recordObjectChunk projectId seq).doUploadObjects hashBytes projectId upload =
        .ok s') :
      Handled hashBytes s (.objectChunk projectId seq upload) ⟨.committed, s', false⟩
  | contents {contents : List ObjectContent} {rows : List NewContentStoreRow} {count : ℕ}
      (hrows : contents.mapM (checkContent hashBytes) = .ok rows) :
      Handled hashBytes s (.contents contents)
        ⟨.newEntries count, rows.foldl insertContent s, false⟩
  /-- The project is complete already, or there is none. -/
  | notFinalized {projectId : ℤ} {found : Bool} :
      Handled hashBytes s (.finalize projectId) ⟨.found found, s, false⟩
  | finalized {projectId : ℤ} {p : ProjectRow} (hfind : s.findProject projectId = some p)
      (hstatus : p.uploadStatus = .uploading)
      (hsymbols : ∀ n, p.symbolChunksTotal = some n →
        (committedChunks s.symbolChunks projectId : ℤ) = n)
      (hobjects : ∀ n, p.objectChunksTotal = some n →
        (committedChunks s.objectChunks projectId : ℤ) = n) :
      Handled hashBytes s (.finalize projectId)
        ⟨.found true, (s.setStatus projectId .complete).purgeEphCache, true⟩
  /-- A fixture, or there is no such project. -/
  | notMarked {projectId : ℤ} :
      Handled hashBytes s (.markDeleting projectId) ⟨.found false, s, false⟩
  | marked {projectId : ℤ} :
      Handled hashBytes s (.markDeleting projectId)
        ⟨.found true, s.setStatus projectId .deleting, false⟩
  | deleted {projectId : ℤ} :
      Handled hashBytes s (.deleteProject projectId)
        ⟨.committed, (s.deleteProject projectId).store, true⟩

/-- **Every transaction goes one of these ways.** -/
theorem handle_cases {req : Request} {c : Committed Response}
    (h : s.handle hashBytes req = .ok c) : Handled hashBytes s req c := by
  cases req with
  | uploadIndex upload symbolTotal objectTotal rootHash =>
    obtain ⟨⟨value, store, purged⟩, hc, rfl⟩ := Fallible.map_eq_ok.mp h
    rcases uploadIndex_cases hc with ⟨p, hfind, hstatus, htotal, heq⟩ |
      ⟨s', created, hcleared, hcreated, rfl, rfl⟩
    · obtain ⟨rfl, rfl, rfl⟩ := Committed.mk.inj heq
      exact .resumed hfind hstatus htotal
    · exact .created hcleared hcreated
  | symbolChunk projectId seq upload =>
    obtain ⟨⟨value, store, purged⟩, hc, rfl⟩ := Fallible.map_eq_ok.mp h
    obtain ⟨rfl, ⟨-, rfl⟩ | ⟨hnew, hproject, hinsert⟩⟩ := uploadSymbolChunk_cases hc
    · exact .symbolChunkAgain
    · exact .symbolChunk hnew hproject hinsert
  | objectChunk projectId seq upload =>
    obtain ⟨⟨value, store, purged⟩, hc, rfl⟩ := Fallible.map_eq_ok.mp h
    obtain ⟨rfl, ⟨-, rfl⟩ | ⟨hnew, hproject, hinsert⟩⟩ := uploadObjectChunk_cases hc
    · exact .objectChunkAgain
    · exact .objectChunk hnew hproject hinsert
  | contents contents =>
    obtain ⟨c, hc, rfl⟩ := Fallible.map_eq_ok.mp h
    obtain ⟨rows, hrows, hc⟩ := Fallible.bind_eq_ok.mp hc
    obtain rfl := Except.ok.inj hc
    exact .contents hrows
  | finalize projectId =>
    obtain ⟨⟨value, store, purged⟩, hc, rfl⟩ := Fallible.map_eq_ok.mp h
    rcases finalizeProject_cases hc with ⟨rfl, rfl⟩ | ⟨p, hp, hstatus, hsymbols, hobjects, heq⟩
    · exact .notFinalized
    · obtain ⟨rfl, rfl, rfl⟩ := Committed.mk.inj heq
      exact .finalized hp hstatus hsymbols hobjects
  | markDeleting projectId =>
    obtain rfl := Except.ok.inj h
    unfold markDeleting
    split
    · exact .marked
    · exact .notMarked
  | deleteProject projectId =>
    obtain rfl := Except.ok.inj h
    exact .deleted

/-! ### Rows and layers -/

theorem SameUploads.ephemeralLayers {s s' : Store} (h : SameUploads s s') :
    s'.ephemeralLayers = s.ephemeralLayers := by
  rw [Store.ephemeralLayers, h.layers, Store.ephemeralLayers]

theorem ephemeralLayers_deleteProject (s : Store) (projectId : ℤ) :
    (s.deleteProject projectId).store.ephemeralLayers = [] := by
  simp [deleteProject]

/-- **A transaction purges the ephemeral layers or leaves all of them.** -/
theorem ephemeralLayers_handle {req : Request} {c : Committed Response}
    (h : s.handle hashBytes req = .ok c) :
    c.store.ephemeralLayers = if c.purged then [] else s.ephemeralLayers := by
  cases handle_cases h with
  | resumed | symbolChunkAgain | objectChunkAgain | notFinalized | notMarked | marked => rfl
  | created hcleared hcreated =>
    have hlayers := (insertProject_ok hcreated).2.2.2.2.2.1
    rcases hcleared with ⟨rfl, rfl⟩ | ⟨z, -, -, rfl, rfl⟩
    · simpa using hlayers
    · simpa using hlayers
  | symbolChunk hnew hproject hinsert => exact (sameUploads_insertSymbols hinsert).ephemeralLayers
  | objectChunk hnew hproject hinsert => exact (sameUploads_doUploadObjects hinsert).ephemeralLayers
  | contents => exact (sameUploads_insertContents s _).ephemeralLayers
  | finalized => simp
  | deleted => exact ephemeralLayers_deleteProject s _

/-- Whether a request is a chunk that has not been committed yet and carries rows. -/
def carriesRows (s : Store) : Request → Bool
  | .symbolChunk projectId seq upload =>
    !s.symbolChunks.contains ⟨projectId, seq⟩ && !upload.symbols.isEmpty
  | .objectChunk projectId seq upload =>
    !s.objectChunks.contains ⟨projectId, seq⟩ && !upload.objects.isEmpty
  | _ => false

/-- A chunk without symbols inserts none. -/
theorem insertSymbols_nil {s s' : Store} {projectId : ℤ}
    (h : s.insertSymbols projectId [] = .ok s') : s' = s := by
  obtain ⟨root, -, h⟩ := Fallible.bind_eq_ok.mp h
  obtain ⟨rows, hrows, h⟩ := Fallible.bind_eq_ok.mp h
  obtain rfl : [] = rows := by simpa [buildSymbols, buildSymbolsFrom] using hrows
  exact (Except.ok.inj h).symm

/-- A chunk without objects inserts none. -/
theorem doUploadObjects_nil {s s' : Store} {projectId : ℤ} {upload : UploadProject}
    (hnil : upload.objects = []) (h : s.doUploadObjects hashBytes projectId upload = .ok s') :
    s' = s := by
  obtain ⟨root, -, h⟩ := Fallible.bind_eq_ok.mp h
  obtain ⟨inserts, hinserts, h⟩ := Fallible.bind_eq_ok.mp h
  obtain rfl : [] = inserts := by
    simpa [hnil, buildObjects, buildObjectsFrom] using hinserts
  split at h
  · obtain ⟨inserted, hinserted, h⟩ := Fallible.bind_eq_ok.mp h
    obtain rfl : (s, []) = inserted := by
      simpa [insertObjects, chunks, maxInsertRows] using hinserted
    obtain ⟨instances, hinstances, h⟩ := Fallible.bind_eq_ok.mp h
    obtain rfl : [] = instances := by simpa [hnil, buildSymbolInstances] using hinstances
    obtain ⟨s₁, hs₁, h⟩ := Fallible.bind_eq_ok.mp h
    obtain rfl : s = s₁ := by simpa using hs₁
    obtain ⟨refs, hrefs, h⟩ := Fallible.bind_eq_ok.mp h
    obtain rfl : [] = refs := by simpa [hnil, buildSymbolRefs] using hrefs
    exact (Except.ok.inj h).symm
  · cases h

/-- **Without a purge, only a new chunk changes the persistent rows.** -/
theorem rows_handle {req : Request} {c : Committed Response}
    (h : s.handle hashBytes req = .ok c) (hpurged : c.purged = false)
    (hcarries : s.carriesRows req = false) : c.store.rows = s.rows := by
  cases handle_cases h with
  | resumed | symbolChunkAgain | objectChunkAgain | notFinalized | notMarked | marked => rfl
  | created hcleared hcreated =>
    have hrows := (insertProject_ok hcreated).2.2.2.2.2.2
    rcases hcleared with ⟨rfl, -⟩ | ⟨z, -, -, htrue, -⟩
    · exact hrows
    · exact absurd (hpurged.symm.trans htrue) (by decide)
  | @symbolChunk projectId seq upload s' hnew hproject hinsert =>
    have hnil : upload.symbols = [] := by simpa [carriesRows, hnew] using hcarries
    rw [hnil] at hinsert
    obtain rfl : s' = s.recordSymbolChunk projectId seq := insertSymbols_nil hinsert
    rfl
  | @objectChunk projectId seq upload s' hnew hproject hinsert =>
    have hnil : upload.objects = [] := by simpa [carriesRows, hnew] using hcarries
    obtain rfl : s' = s.recordObjectChunk projectId seq := doUploadObjects_nil hnil hinsert
    rfl
  | @contents _ rows =>
    obtain ⟨contentStore, heq⟩ := insertContents_eq s rows
    show (rows.foldl insertContent s).rows = s.rows
    rw [heq]
    rfl
  | finalized | deleted => cases hpurged

end Store

end Askl
