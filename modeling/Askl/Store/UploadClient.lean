import Askl.Library.Exchange
import Askl.Library.Packing
import Askl.Store.Upload

/-!
# The client of the upload requests

`askld index upload` sends a project in chunks: `upload_project_core` creates or resumes the
project, sends the contents the server does not hold, then all symbol chunks and, once these are
committed, all object chunks, and finalises the project.  Up to `window` chunks are under way at
once, and a chunk whose request is lost is sent again.

The client is a function of the events it awaits; what it does between two of them is one step.
The server is the handlers of `api/index.rs`, each of which runs one transaction or several.

## Main definitions

* `UploadArgs`, `UploadArgs.symbolChunks`, `UploadArgs.objectChunks` — what is uploaded.
* `subBatches` — the batches that contents are sent in.
* `Call`, `Reply`, `ServerJob`, `Store.serveJob` — the handlers.
* `UploadPhase`, `uploadClient` — the client.

## Main results

* `isPacking_subBatches` — **the batches are a packing of the contents that are not present.**
* `length_subBatches_le` — there are few batches.
-/

namespace Askl

/-! ### What is uploaded -/

/-- `SYMBOLS_PER_CHUNK`. -/
def symbolsPerChunk : ℕ := 1000

/-- `OBJECTS_PER_CHUNK`. -/
def objectsPerChunk : ℕ := 100

/-- `CONTENTS_HASH_BATCH_SIZE`. -/
def contentsHashBatchSize : ℕ := 10000

/-- `CONTENTS_UPLOAD_MAX_BYTES`. -/
def contentsUploadMaxBytes : ℕ := 128 * 1024 * 1024

/-- `CHUNK_MAX_RETRIES`. -/
def chunkMaxRetries : ℕ := 3

/-- `as i32`. -/
def asI32 (n : ℕ) : ℤ := (BitVec.ofNat 32 n).toInt

/-- The arguments of `upload_project_core`; the files of contents are read. -/
structure UploadArgs where
  projectName : Text
  rootPath : Text
  allSymbols : List UploadSymbol
  allObjects : List UploadObject
  contentFiles : List (List ObjectContent)
  window : ℕ
  force : Bool
  deriving DecidableEq, Repr

namespace UploadArgs

variable (u : UploadArgs)

/-- The symbol chunks, under their numbers. -/
def symbolChunks : List (ℤ × UploadProject) :=
  (chunks symbolsPerChunk u.allSymbols).zipIdx.map fun c => (asI32 c.2, ⟨[], [], [], c.1⟩)

/-- The object chunks, under their numbers. -/
def objectChunks : List (ℤ × UploadProject) :=
  (chunks objectsPerChunk u.allObjects).zipIdx.map fun c => (asI32 c.2, ⟨[], [], c.1, []⟩)

/-- The hashes to ask for, and the batches they are asked in. -/
def hashBatches : List (List Text) :=
  chunks contentsHashBatchSize
    ((u.contentFiles.flatten.map (·.contentHash)).filter fun hash => !hash.isEmpty)

/-- The name the server files the project under. -/
def name : Text := trim u.projectName

end UploadArgs

/-- The batches made so far, and the one that is being filled. -/
structure Batching where
  subBatches : List (List ObjectContent)
  current : List ObjectContent
  currentSize : ℕ

/-- One content: passed over when its hash is present, and put into a new batch when it does not
fit into the current one. -/
def Batching.add (present : List Text) (b : Batching) (entry : ObjectContent) : Batching :=
  if present.contains entry.contentHash then b
  else if b.currentSize + entry.content.length > contentsUploadMaxBytes ∧ b.current ≠ [] then
    ⟨b.subBatches ++ [b.current], [entry], entry.content.length⟩
  else ⟨b.subBatches, b.current ++ [entry], b.currentSize + entry.content.length⟩

/-- The batches made so far, with the one that is being filled. -/
def Batching.batches (b : Batching) : List (List ObjectContent) :=
  if b.current = [] then b.subBatches else b.subBatches ++ [b.current]

/-- The batches of `upload_content_file_filtered`. -/
def subBatches (present : List Text) (contents : List ObjectContent) : List (List ObjectContent) :=
  (contents.foldl (Batching.add present) ⟨[], [], 0⟩).batches

section Batches

open Packing

/-- The contents in the batches are packed, and the size of the last batch is known. -/
structure Batching.Packed (b : Batching) (contents : List ObjectContent) : Prop where
  packing : IsPacking (·.content.length) contentsUploadMaxBytes contents b.batches
  size : b.currentSize = load (·.content.length) b.current
  first : b.current = [] → b.subBatches = []

theorem Batching.Packed.add {b : Batching} {present : List Text}
    {entry : ObjectContent} {packed : List ObjectContent} (h : b.Packed packed)
    (hnew : present.contains entry.contentHash = false) :
    (b.add present entry).Packed (packed ++ [entry]) := by
  unfold Batching.add
  rw [hnew, if_neg Bool.false_ne_true]
  split
  · -- the current batch is full
    next hfull =>
    have hpacking := h.packing
    rw [Batching.batches, if_neg hfull.2] at hpacking
    refine ⟨?_, by simp, fun hnil => absurd hnil (by simp)⟩
    rw [Batching.batches, if_neg (by simp)]
    refine hpacking.next fun g hg => ?_
    obtain rfl : b.current = g := by simpa using hg
    rw [← h.size]
    exact hfull.1
  · next hroom =>
    refine ⟨?_, by simp [h.size], fun hnil => absurd hnil (by simp)⟩
    rw [Batching.batches, if_neg (by simp)]
    have hpacking := h.packing
    by_cases hcurrent : b.current = []
    · -- the first batch takes any content
      rw [Batching.batches, if_pos hcurrent, h.first hcurrent] at hpacking
      rw [hcurrent, h.first hcurrent]
      exact hpacking.next fun g hg => absurd hg (by simp)
    · rw [Batching.batches, if_neg hcurrent] at hpacking
      refine hpacking.grow ?_
      rw [← h.size]
      exact not_lt.mp fun hlt => hroom ⟨hlt, hcurrent⟩

/-- **The batches are a packing of the contents that are not present.** -/
theorem isPacking_subBatches (present : List Text) (contents : List ObjectContent) :
    IsPacking (·.content.length) contentsUploadMaxBytes
      (contents.filter fun entry => !present.contains entry.contentHash)
      (subBatches present contents) := by
  suffices h : ∀ {b packed}, b.Packed packed → (contents.foldl (Batching.add present) b).Packed
      (packed ++ contents.filter fun entry => !present.contains entry.contentHash) by
    have hstart : (⟨[], [], 0⟩ : Batching).Packed [] := ⟨.nil, rfl, fun _ => rfl⟩
    exact (h hstart).packing
  induction contents with
  | nil =>
    intro b packed hb
    simpa using hb
  | cons entry contents ih =>
    intro b packed hb
    rw [List.foldl_cons, List.filter_cons]
    cases hpresent : present.contains entry.contentHash with
    | true =>
      have hsame : b.add present entry = b := if_pos hpresent
      rw [hsame]
      exact ih hb
    | false =>
      have hadd := ih (hb.add hpresent)
      rw [List.append_assoc] at hadd
      exact hadd

/-- There is a batch for every half of the limit, at most. -/
theorem length_subBatches_le (present : List Text) (contents : List ObjectContent) :
    contentsUploadMaxBytes * ((subBatches present contents).length / 2) ≤
      load (·.content.length)
        (contents.filter fun entry => !present.contains entry.contentHash) :=
  (isPacking_subBatches present contents).length_le

end Batches

/-! ### The server -/

/-- `ProjectInfo`. -/
structure ProjectInfo where
  id : ℤ
  projectName : Text
  rootPath : Text
  uploadStatus : UploadStatus
  deriving DecidableEq, Repr

/-- A request of the client. -/
inductive Call where
  | listProjects
  | deleteProject (projectId : ℤ)
  | createProject (projectName rootPath : Text) (symbolChunks objectChunks : ℤ)
  | projectDetails (projectId : ℤ)
  | checkContents (hashes : List Text)
  | uploadContents (contents : List ObjectContent)
  | symbolChunk (projectId seq : ℤ) (chunk : UploadProject)
  | objectChunk (projectId seq : ℤ) (chunk : UploadProject)
  | finalize (projectId : ℤ)
  deriving DecidableEq, Repr

/-- A response: what the client reads of a success, or the status of a failure. -/
inductive Reply where
  | projects (projects : List ProjectInfo)
  | project (projectId : ℤ) (resumed : Bool)
  | details (committedSymbolChunks committedObjectChunks : List ℤ)
  | present (hashes : List Text)
  | ok
  | refused (status : ℕ)
  deriving DecidableEq, Repr

/-- What is left to do of a request: deleting a project and reading its details take several
transactions. -/
inductive ServerJob where
  | call (call : Call)
  | deleteMarked (projectId : ℤ)
  | committedSymbolChunks (projectId : ℤ)
  | committedObjectChunks (projectId : ℤ) (symbolSeqs : List ℤ)
  deriving DecidableEq, Repr

/-- The status a handler fails with; `finalize_project` and `upload_contents` have their own
way with some errors. -/
def UploadError.status : Call → UploadError → ℕ
  | .finalize _, .invalid _ => 500
  | .uploadContents _, .conflict => 500
  | _, .conflict => 409
  | _, .invalid _ => 400
  | _, .storage _ => 500

namespace Store

/-- `list_projects`. -/
def listProjects (s : Store) : List ProjectInfo :=
  ((s.projects.filter fun p => decide (0 < p.id)).insertionSort fun p q => p.id ≤ q.id).map
    fun p => ⟨p.id, p.projectName, p.rootPath, p.uploadStatus⟩

/-- The numbers of the chunks committed for a project, in order. -/
def committedSeqs (rows : List ProjectChunk) (projectId : ℤ) : List ℤ :=
  ((rows.filter (·.projectId == projectId)).map (·.seq)).insertionSort (· ≤ ·)

/-- `check_content_hashes`. -/
def checkContentHashes (s : Store) (hashes : List Text) : List Text :=
  (s.contentStore.filter fun row => hashes.contains row.contentHash).map (·.contentHash)

/-- Commit a transaction and answer, or roll it back and answer with a status. -/
def respond {α : Type} (s : Store) (call : Call) (out : Except UploadError (Committed α))
    (reply : α → Reply) : Store × (ServerJob ⊕ Reply) :=
  match out with
  | .ok c => (c.store, .inr (reply c.value))
  | .error e => (s, .inr (.refused (e.status call)))

/-- One transaction of a handler.  The hash of a new root layer is drawn at random. -/
def serveJob (hashBytes : Bytes → Text) (rootHash : Bytes) (s : Store) :
    ServerJob → Store × (ServerJob ⊕ Reply)
  | .call .listProjects => (s, .inr (.projects s.listProjects))
  | .call (.deleteProject projectId) =>
    let marked := s.markDeleting projectId
    (marked.store, if marked.value then .inl (.deleteMarked projectId) else .inr (.refused 404))
  | .deleteMarked projectId => ((s.deleteProject projectId).store, .inr .ok)
  | .call (.createProject projectName rootPath symbolChunks objectChunks) =>
    s.respond (.createProject projectName rootPath symbolChunks objectChunks)
      (s.uploadIndex ⟨projectName, rootPath, [], []⟩ (some symbolChunks) (some objectChunks)
        rootHash) fun created => .project created.1 created.2
  | .call (.projectDetails projectId) =>
    if 0 < projectId ∧ (s.findProject projectId).isSome then
      (s, .inl (.committedSymbolChunks projectId))
    else (s, .inr (.refused 404))
  | .committedSymbolChunks projectId =>
    (s, .inl (.committedObjectChunks projectId (committedSeqs s.symbolChunks projectId)))
  | .committedObjectChunks projectId symbolSeqs =>
    (s, .inr (.details symbolSeqs (committedSeqs s.objectChunks projectId)))
  | .call (.checkContents hashes) => (s, .inr (.present (s.checkContentHashes hashes)))
  | .call (.uploadContents contents) =>
    s.respond (.uploadContents contents) (s.uploadContents hashBytes contents) fun _ => .ok
  | .call (.symbolChunk projectId seq chunk) =>
    s.respond (.symbolChunk projectId seq chunk) (s.uploadSymbolChunk projectId seq chunk)
      fun _ => .ok
  | .call (.objectChunk projectId seq chunk) =>
    s.respond (.objectChunk projectId seq chunk) (s.uploadObjectChunk hashBytes projectId seq chunk)
      fun _ => .ok
  | .call (.finalize projectId) =>
    s.respond (.finalize projectId) (s.finalizeProject projectId) fun found =>
      if found then .ok else .refused 404

end Store

/-! ### The client -/

/-- A chunk under way: how often it has been sent again, and its last request. -/
structure ChunkTask where
  seq : ℤ
  chunk : UploadProject
  attempt : ℕ
  tag : ℕ
  deriving DecidableEq, Repr

/-- `upload_chunks_windowed` on its way: the chunks to go through, the tasks that run, and
whether one has failed. -/
structure ChunkWindow where
  todo : List (ℤ × UploadProject)
  tasks : List ChunkTask
  failed : Bool
  deriving DecidableEq, Repr

/-- `ProjectState`. -/
structure ProjectState where
  projectId : ℤ
  committedSymbolSeqs : List ℤ
  committedObjectSeqs : List ℤ
  deriving DecidableEq, Repr

/-- The stages of `do_upload`; a request that is awaited is known by its position. -/
inductive UploadStage where
  | checking (todo : List (List Text)) (present : List Text) (tag : Option ℕ)
  | contents (todo : List (List ObjectContent)) (tag : Option ℕ)
  | symbols (w : ChunkWindow)
  | objects (w : ChunkWindow)
  | finalizing (tag : Option ℕ)
  deriving DecidableEq, Repr

/-- The phases of `upload_project_core`, of which `ensure_project` has the first ones. -/
inductive UploadPhase where
  | start
  | listing (tag : ℕ)
  | deleting (tag : ℕ)
  | creating (tag : ℕ)
  | detailing (tag : ℕ) (projectId : ℤ)
  | uploading (state : ProjectState) (stage : UploadStage)
  | done (projectId : ℤ)
  | failed
  deriving DecidableEq, Repr

/-- What the client does by itself: go on, take a request of a chunk for lost, fail to read the
body of a response to one, or give up over a file or any other request. -/
inductive Tick where
  | proceed
  | lost (tag : ℕ)
  | broken (tag : ℕ)
  | abort
  deriving DecidableEq, Repr

open Exchange

namespace UploadArgs

variable (u : UploadArgs)

/-- Ask for the project. -/
def create (next : ℕ) : UploadPhase × Option Call :=
  (.creating next, some (.createProject u.projectName u.rootPath (asI32 u.symbolChunks.length)
    (asI32 u.objectChunks.length)))

/-- Start `do_upload`. -/
def enter (state : ProjectState) : UploadPhase × Option Call :=
  (.uploading state (.checking u.hashBatches [] none), none)

end UploadArgs

/-- `upload_chunk_with_retry` after an attempt that may be repeated. -/
def ChunkWindow.retry (w : ChunkWindow) (call : ℤ → UploadProject → Call) (next tag : ℕ) :
    Option (ChunkWindow × Option Call) :=
  match w.tasks.find? (·.tag == tag) with
  | none => none
  | some task =>
    let others := w.tasks.filter (·.tag != tag)
    if task.attempt < chunkMaxRetries then
      some ({ w with tasks := others ++ [{ task with attempt := task.attempt + 1, tag := next }] },
        some (call task.seq task.chunk))
    else some ({ w with tasks := others, failed := true }, none)

/-- A task that is done, or has failed. -/
def ChunkWindow.finish (w : ChunkWindow) (tag : ℕ) (failed : Bool) :
    Option (ChunkWindow × Option Call) :=
  if w.tasks.any (·.tag == tag) then
    some ({ w with tasks := w.tasks.filter (·.tag != tag), failed := w.failed || failed }, none)
  else none

/-- A response to a chunk that is taken for a success: `409 Conflict` means that the chunk is
committed already. -/
def Reply.accepted : Reply → Bool
  | .refused status => status == 409
  | _ => true

/-- `StatusCode::is_server_error`. -/
def Reply.isServerError : Reply → Bool
  | .refused status => 500 ≤ status && status < 600
  | _ => false

/-- A response to a chunk; only a server error is tried again. -/
def ChunkWindow.reply (w : ChunkWindow) (call : ℤ → UploadProject → Call) (next tag : ℕ)
    (reply : Reply) : Option (ChunkWindow × Option Call) :=
  if reply.accepted then w.finish tag false
  else if reply.isServerError then w.retry call next tag
  else w.finish tag true

/-- The loop of `upload_chunks_windowed`: pass over a chunk that is committed, or spawn a task
when the window has room. -/
def ChunkWindow.spawn (w : ChunkWindow) (call : ℤ → UploadProject → Call) (committed : List ℤ)
    (window next : ℕ) : Option (ChunkWindow × Option Call) :=
  match w.todo with
  | [] => none
  | (seq, chunk) :: todo =>
    if committed.contains seq then some ({ w with todo := todo }, none)
    else if w.tasks.length < window then
      some ({ w with todo := todo, tasks := w.tasks ++ [⟨seq, chunk, 0, next⟩] },
        some (call seq chunk))
    else none

/-- What a window does on an event, other than coming to its end. -/
def ChunkWindow.act (w : ChunkWindow) (call : ℤ → UploadProject → Call) (committed : List ℤ)
    (window next : ℕ) : Event Reply Tick → Option (ChunkWindow × Option Call)
  | .inl (tag, reply) => w.reply call next tag reply
  | .inr .proceed => w.spawn call committed window next
  | .inr (.lost tag) => w.retry call next tag
  | .inr (.broken tag) => w.finish tag true
  | .inr .abort => none

/-- The end of a window: it fails as soon as the failure of a task is seen. -/
def ChunkWindow.exit (w : ChunkWindow) : Event Reply Tick → Option Bool
  | .inr .proceed =>
    if w.todo = [] ∧ w.failed then some false
    else if w.todo = [] ∧ w.tasks = [] then some true
    else none
  | _ => none

/-- Keep the state of a project with the stage that comes next. -/
def stay {α : Type} (state : ProjectState) (stage : α → UploadStage) (out : α × Option Call) :
    UploadPhase × Option Call :=
  (.uploading state (stage out.1), out.2)

/-- The stages of `do_upload`. -/
def uploadStage (u : UploadArgs) (state : ProjectState) (next : ℕ) (e : Event Reply Tick) :
    UploadStage → Option (UploadPhase × Option Call)
  | .checking [] present none => match e with
    | .inr .proceed =>
      some (.uploading state (.contents (u.contentFiles.flatMap (subBatches present)) none), none)
    | _ => none
  | .checking (batch :: todo) present none => match e with
    | .inr .proceed =>
      some (.uploading state (.checking todo present (some next)), some (.checkContents batch))
    | _ => none
  | .checking todo present (some tag) => match e with
    | .inl (tag', reply) =>
      if tag' = tag then match reply with
        | .present hashes => some (.uploading state (.checking todo (present ++ hashes) none), none)
        | _ => some (.failed, none)
      else none
    | _ => none
  | .contents [] none => match e with
    | .inr .proceed => some (.uploading state (.symbols ⟨u.symbolChunks, [], false⟩), none)
    | _ => none
  | .contents (batch :: todo) none => match e with
    | .inr .proceed =>
      some (.uploading state (.contents todo (some next)), some (.uploadContents batch))
    | _ => none
  | .contents todo (some tag) => match e with
    | .inl (tag', reply) =>
      if tag' = tag then match reply with
        | .ok => some (.uploading state (.contents todo none), none)
        | _ => some (.failed, none)
      else none
    | _ => none
  | .symbols w => match w.exit e with
    | some true => some (.uploading state (.objects ⟨u.objectChunks, [], false⟩), none)
    | some false => some (.failed, none)
    | none => (w.act (.symbolChunk state.projectId) state.committedSymbolSeqs u.window next e).map
        (stay state .symbols)
  | .objects w => match w.exit e with
    | some true => some (.uploading state (.finalizing none), none)
    | some false => some (.failed, none)
    | none => (w.act (.objectChunk state.projectId) state.committedObjectSeqs u.window next e).map
        (stay state .objects)
  | .finalizing none => match e with
    | .inr .proceed =>
      some (.uploading state (.finalizing (some next)), some (.finalize state.projectId))
    | _ => none
  | .finalizing (some tag) => match e with
    | .inl (tag', reply) =>
      if tag' = tag then match reply with
        | .ok => some (.done state.projectId, none)
        | _ => some (.failed, none)
      else none
    | _ => none

/-- `upload_project_core`, on the events it awaits. -/
def uploadClient (u : UploadArgs) : Client Call Reply UploadPhase Tick := fun phase next e =>
  match phase, e with
  | .done _, _ => none
  | .failed, _ => none
  | _, .inr .abort => some (.failed, none)
  | .start, .inr .proceed =>
    some (if u.force then (.listing next, some .listProjects) else u.create next)
  | .listing tag, .inl (tag', reply) =>
    if tag' = tag then match reply with
      | .projects projects =>
        some (match projects.find? (·.projectName == u.projectName) with
          | some existing => (.deleting next, some (.deleteProject existing.id))
          | none => u.create next)
      | _ => some (.failed, none)
    else none
  | .deleting tag, .inl (tag', reply) =>
    if tag' = tag then
      some (if reply = .ok ∨ reply = .refused 404 then u.create next else (.failed, none))
    else none
  | .creating tag, .inl (tag', reply) =>
    if tag' = tag then match reply with
      | .project projectId resumed =>
        some (if resumed then (.detailing next projectId, some (.projectDetails projectId))
          else u.enter ⟨projectId, [], []⟩)
      | _ => some (.failed, none)
    else none
  -- a project whose details are refused is uploaded from the start
  | .detailing tag projectId, .inl (tag', reply) =>
    if tag' = tag then match reply with
      | .details symbolSeqs objectSeqs => some (u.enter ⟨projectId, symbolSeqs, objectSeqs⟩)
      | .refused _ => some (u.enter ⟨projectId, [], []⟩)
      | _ => some (.failed, none)
    else none
  | .uploading state stage, e => uploadStage u state next e stage
  | _, _ => none

end Askl
