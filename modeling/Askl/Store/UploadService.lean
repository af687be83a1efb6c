import Askl.Store.ContentStore
import Askl.Store.Filed
import Askl.Store.UploadClient

/-!
# What an upload can rely on

The server runs the transactions of a client and those of others in any order, and may fail any
of them.  Others are assumed to leave a project alone that is being uploaded or complete; all
else they may do, and upload chunks to the same project as well.

## Main definitions

* `uploadService` — the handlers, over a network.
* `Store.Live`, `Store.Finished` — a project that is up under its name.
* `Store.Keeps` — what survives all requests but deletions.
* `uploadContract` — what each request of the client requires, and what its answer tells.

## Main results

* `Store.Keeps.handle` — **all requests but deletions keep a live project and its chunks.**
* `avoids_conflict_uploadSymbolChunk`, `avoids_conflict_uploadObjectChunk` — no chunk is answered
  with a conflict.
-/

namespace Askl

open Exchange

/-! ### Projects that are up -/

/-- The project a request deletes, or marks for it. -/
def Request.deletes : Request → Option ℤ
  | .markDeleting projectId => some projectId
  | .deleteProject projectId => some projectId
  | _ => none

/-- A project that is being uploaded or complete. -/
def ProjectRow.Live (p : ProjectRow) : Prop :=
  p.uploadStatus = .uploading ∨ p.uploadStatus = .complete

instance (p : ProjectRow) : Decidable p.Live :=
  inferInstanceAs (Decidable (p.uploadStatus = .uploading ∨ p.uploadStatus = .complete))

namespace Store

/-- The project of an id is being uploaded or complete, under a name. -/
def Live (s : Store) (name : Text) (projectId : ℤ) : Prop :=
  ∃ p ∈ s.projects, p.id = projectId ∧ p.projectName = name ∧ p.Live

instance (s : Store) (name : Text) (projectId : ℤ) : Decidable (s.Live name projectId) :=
  inferInstanceAs (Decidable (∃ p ∈ s.projects, _ ∧ _ ∧ _))

/-- The project of an id is complete, under a name. -/
def Finished (s : Store) (name : Text) (projectId : ℤ) : Prop :=
  ∃ p ∈ s.projects, p.id = projectId ∧ p.projectName = name ∧ p.uploadStatus = .complete

/-- A request that deletes no live project of a name. -/
def Spares (name : Text) (s : Store) (req : Request) : Prop :=
  ∀ projectId ∈ req.deletes, ¬s.Live name projectId

instance (name : Text) (s : Store) (req : Request) : Decidable (Spares name s req) :=
  inferInstanceAs (Decidable (∀ projectId ∈ req.deletes, ¬s.Live name projectId))

/-- What survives of the project of a row. -/
structure KeepsRow (s s' : Store) (p : ProjectRow) : Prop where
  row : ∃ p' ∈ s'.projects, p'.id = p.id ∧ p'.projectName = p.projectName ∧
    (p'.uploadStatus = p.uploadStatus ∨ p'.uploadStatus = .complete)
  symbolChunks : ∀ seq, ⟨p.id, seq⟩ ∈ s.symbolChunks → ⟨p.id, seq⟩ ∈ s'.symbolChunks
  objectChunks : ∀ seq, ⟨p.id, seq⟩ ∈ s.objectChunks → ⟨p.id, seq⟩ ∈ s'.objectChunks

/-- The live projects of a name stay, with their chunks, and so do all contents. -/
structure Keeps (name : Text) (s s' : Store) : Prop where
  rows : ∀ p ∈ s.projects, p.projectName = name → p.Live → KeepsRow s s' p
  present : ∀ hash, s.Present hash → s'.Present hash

variable {hashBytes : Bytes → Text} {name : Text} {s s' s'' : Store} {p : ProjectRow}
  {projectId seq : ℤ}

theorem KeepsRow.refl (hp : p ∈ s.projects) : KeepsRow s s p :=
  ⟨⟨p, hp, rfl, rfl, Or.inl rfl⟩, fun _ h => h, fun _ h => h⟩

/-- The projects and the chunks are the same. -/
theorem KeepsRow.of_eq (hp : p ∈ s.projects) (hprojects : s'.projects = s.projects)
    (hsymbols : ∀ c ∈ s.symbolChunks, c ∈ s'.symbolChunks)
    (hobjects : ∀ c ∈ s.objectChunks, c ∈ s'.objectChunks) : KeepsRow s s' p :=
  ⟨⟨p, hprojects ▸ hp, rfl, rfl, Or.inl rfl⟩, fun _ h => hsymbols _ h, fun _ h => hobjects _ h⟩

/-- A project is resumed that was being uploaded, and replaced only when it was not live. -/
theorem uploadIndex_clears {upload : UploadProject} {symbolTotal objectTotal : Option ℤ}
    {rootHash : Bytes} {c : Committed (ℤ × Bool)}
    (h : s.uploadIndex upload symbolTotal objectTotal rootHash = .ok c) :
    c.store = s ∨ ∃ s₁ created, (s₁ = s ∨ ∃ z ∈ s.projects, ¬z.Live ∧
        s₁ = ((s.deleteProjectRow z.id).deleteRootLayer z.rootLayerId).purgeEphCache) ∧
      s₁.insertProject (trim upload.projectName) (trim upload.rootPath) symbolTotal objectTotal
        rootHash = .ok created ∧ c.store = created.2 := by
  unfold uploadIndex at h
  simp only at h
  split at h
  · cases h
  split at h
  · cases h
  split at h
  · cases h
  split at h
  · cases h
  unfold createProject at h
  split at h
  · obtain ⟨created, hcreated, h⟩ := Fallible.bind_eq_ok.mp h
    obtain rfl := Except.ok.inj h
    exact Or.inr ⟨s, created, Or.inl rfl, hcreated, rfl⟩
  next existing hfind =>
  split at h
  · split at h
    · cases h
    · obtain rfl := Except.ok.inj h
      exact Or.inl rfl
  · cases h
  · next huploading hcomplete =>
    obtain ⟨created, hcreated, h⟩ := Fallible.bind_eq_ok.mp h
    obtain rfl := Except.ok.inj h
    refine Or.inr ⟨_, created, Or.inr ⟨existing, List.mem_of_find?_eq_some hfind, ?_, rfl⟩,
      hcreated, rfl⟩
    intro hlive
    exact hlive.elim huploading hcomplete

theorem findProject_of_mem (hs : s.Filed) (hp : p ∈ s.projects) : s.findProject p.id = some p := by
  cases hfind : s.findProject p.id with
  | none =>
    have hne := List.find?_eq_none.mp hfind p hp
    simp at hne
  | some q =>
    obtain ⟨hq, hid⟩ := findProject_eq_some hfind
    rw [List.inj_on_of_nodup_map hs.projectIds hq hp hid]

/-- The status of a project changes. -/
theorem KeepsRow.setStatus (hp : p ∈ s.projects) {status : UploadStatus}
    (hstatus : status = .complete ∨ projectId ≠ p.id) :
    KeepsRow s (s.setStatus projectId status) p := by
  refine ⟨⟨_, List.mem_map_of_mem hp, ?_⟩, fun _ h => h, fun _ h => h⟩
  split
  · next hid => exact ⟨rfl, rfl, Or.inr (hstatus.resolve_right fun hne => hne hid.symm)⟩
  · exact ⟨rfl, rfl, Or.inl rfl⟩

/-- Another project goes. -/
theorem KeepsRow.filter (hp : p ∈ s.projects) (hne : projectId ≠ p.id)
    (hprojects : s'.projects = s.projects.filter (·.id != projectId))
    (hsymbols : s'.symbolChunks = s.symbolChunks.filter (·.projectId != projectId))
    (hobjects : s'.objectChunks = s.objectChunks.filter (·.projectId != projectId)) :
    KeepsRow s s' p := by
  have hkeep : ∀ {rows : List ProjectChunk} {seq : ℤ}, ⟨p.id, seq⟩ ∈ rows →
      (⟨p.id, seq⟩ : ProjectChunk) ∈ rows.filter (·.projectId != projectId) := by
    intro rows seq hmem
    exact List.mem_filter.mpr ⟨hmem, by simpa using hne.symm⟩
  refine ⟨⟨p, ?_, rfl, rfl, Or.inl rfl⟩, fun seq h => hsymbols ▸ hkeep h,
    fun seq h => hobjects ▸ hkeep h⟩
  rw [hprojects]
  exact List.mem_filter.mpr ⟨hp, by simpa using hne.symm⟩

/-- A request keeps the row of a live project that it does not delete. -/
theorem KeepsRow.handle (hs : s.Filed) {req : Request} {c : Committed Response}
    (h : s.handle hashBytes req = .ok c) (hp : p ∈ s.projects) (hlive : p.Live)
    (hdeletes : ∀ projectId ∈ req.deletes, projectId ≠ p.id) : KeepsRow s c.store p := by
  cases req with
  | uploadIndex upload symbolTotal objectTotal rootHash =>
    obtain ⟨c', hc', rfl⟩ := Fallible.map_eq_ok.mp h
    rcases uploadIndex_clears hc' with hsame | ⟨s₁, created, hcleared, hcreated, hstore⟩
    · show KeepsRow s c'.store p
      rw [hsame]
      exact .refl hp
    -- the new project comes after the others, one of which may have gone
    have hkept : KeepsRow s s₁ p := by
      rcases hcleared with rfl | ⟨z, hz, hdead, rfl⟩
      · exact .refl hp
      · have hne : z.id ≠ p.id := by
          intro hid
          obtain rfl := List.inj_on_of_nodup_map hs.projectIds hz hp hid
          exact hdead hlive
        exact .filter hp hne rfl rfl rfl
    obtain ⟨-, -, hprojects, hsymbols, hobjects, -, -⟩ := insertProject_ok hcreated
    obtain ⟨p', hp', hrow⟩ := hkept.row
    show KeepsRow s c'.store p
    rw [hstore]
    refine ⟨⟨p', ?_, hrow⟩, fun seq hseq => ?_, fun seq hseq => ?_⟩
    · rw [hprojects]
      exact List.mem_append_left _ hp'
    · rw [hsymbols]
      exact hkept.symbolChunks seq hseq
    · rw [hobjects]
      exact hkept.objectChunks seq hseq
  | symbolChunk projectId seq upload =>
    cases handle_cases h with
    | symbolChunkAgain => exact .refl hp
    | symbolChunk hnew hproject hinsert =>
      have hsame := sameUploads_insertSymbols hinsert
      refine .of_eq hp hsame.projects (fun c hc => ?_) fun c hc => hsame.objectChunks ▸ hc
      rw [hsame.symbolChunks]
      exact List.mem_append_left _ hc
  | objectChunk projectId seq upload =>
    cases handle_cases h with
    | objectChunkAgain => exact .refl hp
    | objectChunk hnew hproject hinsert =>
      have hsame := sameUploads_doUploadObjects hinsert
      refine .of_eq hp hsame.projects (fun c hc => hsame.symbolChunks ▸ hc) fun c hc => ?_
      rw [hsame.objectChunks]
      exact List.mem_append_left _ hc
  | contents contents =>
    cases handle_cases h with
    | @contents _ rows =>
      have hsame := sameUploads_insertContents s rows
      exact .of_eq hp hsame.projects (fun c hc => hsame.symbolChunks ▸ hc)
        fun c hc => hsame.objectChunks ▸ hc
  | finalize projectId =>
    cases handle_cases h with
    | notFinalized => exact .refl hp
    | finalized =>
      have hset : KeepsRow s (s.setStatus projectId .complete) p := .setStatus hp (Or.inl rfl)
      exact ⟨hset.row, hset.symbolChunks, hset.objectChunks⟩
  | markDeleting projectId =>
    cases handle_cases h with
    | notMarked => exact .refl hp
    | marked => exact .setStatus hp (Or.inr (hdeletes projectId rfl))
  | deleteProject projectId =>
    cases handle_cases h with
    | deleted =>
      obtain ⟨hprojects, hsymbols, hobjects, -⟩ := deleteProject_eq s projectId
      exact .filter hp (hdeletes projectId rfl) hprojects hsymbols hobjects

/-- **All requests but deletions keep the live projects.** -/
theorem Keeps.handle (hs : s.Filed) {req : Request} {c : Committed Response}
    (h : s.handle hashBytes req = .ok c) (hspares : Spares name s req) :
    Keeps name s c.store where
  rows p hp hname hlive := by
    refine .handle hs h hp hlive fun projectId hdeletes hid => ?_
    exact hspares projectId hdeletes ⟨p, hp, hid.symm, hname, hlive⟩
  present hash hpresent := hpresent.mono (handle_contentGrows h)

namespace Keeps

protected theorem refl (s : Store) : Keeps name s s :=
  ⟨fun _ hp _ _ => .refl hp, fun _ h => h⟩

/-- The project stays live. -/
theorem live (h : Keeps name s s') (hlive : s.Live name projectId) : s'.Live name projectId := by
  obtain ⟨p, hp, rfl, hname, hstatus⟩ := hlive
  obtain ⟨p', hp', hid, hname', hstatus'⟩ := (h.rows p hp hname hstatus).row
  refine ⟨p', hp', hid, hname'.trans hname, ?_⟩
  rcases hstatus' with hsame | hcomplete
  · rw [ProjectRow.Live, hsame]
    exact hstatus
  · exact Or.inr hcomplete

theorem finished (h : Keeps name s s') (hfinished : s.Finished name projectId) :
    s'.Finished name projectId := by
  obtain ⟨p, hp, rfl, hname, hstatus⟩ := hfinished
  obtain ⟨p', hp', hid, hname', hstatus'⟩ := (h.rows p hp hname (Or.inr hstatus)).row
  refine ⟨p', hp', hid, hname'.trans hname, ?_⟩
  rcases hstatus' with hsame | hcomplete
  · exact hsame.trans hstatus
  · exact hcomplete

theorem symbolChunks (h : Keeps name s s') (hlive : s.Live name projectId)
    (hseq : ⟨projectId, seq⟩ ∈ s.symbolChunks) : ⟨projectId, seq⟩ ∈ s'.symbolChunks := by
  obtain ⟨p, hp, rfl, hname, hstatus⟩ := hlive
  exact (h.rows p hp hname hstatus).symbolChunks seq hseq

theorem objectChunks (h : Keeps name s s') (hlive : s.Live name projectId)
    (hseq : ⟨projectId, seq⟩ ∈ s.objectChunks) : ⟨projectId, seq⟩ ∈ s'.objectChunks := by
  obtain ⟨p, hp, rfl, hname, hstatus⟩ := hlive
  exact (h.rows p hp hname hstatus).objectChunks seq hseq

protected theorem trans (h : Keeps name s s') (h' : Keeps name s' s'') : Keeps name s s'' where
  rows p hp hname hlive := by
    obtain ⟨p', hp', hid, hname', hstatus⟩ := (h.rows p hp hname hlive).row
    have hlive' : p'.Live := by
      rcases hstatus with hsame | hcomplete
      · rw [ProjectRow.Live, hsame]
        exact hlive
      · exact Or.inr hcomplete
    have hkeeps := h'.rows p' hp' (hname'.trans hname) hlive'
    obtain ⟨p'', hp'', hid', hname'', hstatus'⟩ := hkeeps.row
    have hold : s.Live name p.id := ⟨p, hp, rfl, hname, hlive⟩
    refine ⟨⟨p'', hp'', hid'.trans hid, hname''.trans hname', ?_⟩, fun seq hseq => ?_,
      fun seq hseq => ?_⟩
    · rcases hstatus' with hsame | hcomplete
      · rw [hsame]
        exact hstatus
      · exact Or.inr hcomplete
    · exact h'.symbolChunks (h.live hold) (h.symbolChunks hold hseq)
    · exact h'.objectChunks (h.live hold) (h.objectChunks hold hseq)
  present hash hpresent := h'.present hash (h.present hash hpresent)

end Keeps

end Store

/-! ### Chunks are never answered with a conflict -/

section Conflict

open Fallible

variable {hashBytes : Bytes → Text}

theorem avoids_conflict_computeSymbolId (projectId localId : ℤ) :
    Avoids .conflict (computeSymbolId projectId localId) := by
  unfold computeSymbolId
  split
  · exact .error (by simp)
  · split
    · exact .error (by simp)
    · exact .ok _ _

theorem avoids_conflict_validateType (value : ℤ) (valid : List ℤ) (label : String) :
    Avoids .conflict (validateType value valid label) := by
  unfold validateType
  split
  · exact .ok _ _
  · exact .error (by simp)

theorem avoids_conflict_buildSymbolsFrom (projectId rootLayerId : ℤ) (seen : List ℤ)
    (symbols : List UploadSymbol) :
    Avoids .conflict (buildSymbolsFrom projectId rootLayerId seen symbols) := by
  induction symbols generalizing seen with
  | nil => exact .ok _ _
  | cons symbol symbols ih =>
    unfold buildSymbolsFrom
    split
    · exact .error (by simp)
    · have hbuild : Avoids .conflict (buildSymbol projectId rootLayerId symbol) := by
        apply (avoids_conflict_computeSymbolId projectId symbol.localId).bind
        intro id
        exact (avoids_conflict_validateType _ _ _).bind fun symbolType => .ok _ _
      exact hbuild.bind fun row => (ih _).bind fun rows => .ok _ _

theorem avoids_conflict_rootLayerOf (s : Store) (projectId : ℤ) :
    Avoids .conflict (s.rootLayerOf projectId) := by
  unfold Store.rootLayerOf
  split
  · exact .error (by simp)
  · exact .ok _ _

/-- **No symbol chunk is answered with a conflict.** -/
theorem avoids_conflict_uploadSymbolChunk (s : Store) (projectId seq : ℤ) (upload : UploadProject) :
    Avoids .conflict (s.uploadSymbolChunk projectId seq upload) := by
  unfold Store.uploadSymbolChunk
  split
  · exact .error (by simp)
  split
  · exact .ok _ _
  split
  · exact .error (by simp)
  apply Avoids.bind _ fun s' => .ok _ _
  apply (avoids_conflict_rootLayerOf _ projectId).bind
  intro rootLayerId
  apply (avoids_conflict_buildSymbolsFrom projectId rootLayerId [] upload.symbols).bind
  intro rows
  apply Avoids.foldlM
  intro s' row
  unfold Store.insertSymbol
  split
  · exact .error (by simp)
  · exact .ok _ _

theorem avoids_conflict_buildObjectsFrom (projectId rootLayerId : ℤ) (seen : List ℤ)
    (objects : List UploadObject) :
    Avoids .conflict (buildObjectsFrom hashBytes projectId rootLayerId seen objects) := by
  induction objects generalizing seen with
  | nil => exact .ok _ _
  | cons object objects ih =>
    have hcontent : Avoids .conflict (objectContent hashBytes object) := by
      unfold objectContent
      split
      · exact .ok _ _
      · dsimp only
        split
        · exact .error (by simp)
        · exact .ok _ _
    have hbuild : Avoids .conflict (buildObject hashBytes projectId rootLayerId object) := by
      unfold buildObject
      dsimp only
      split
      · exact .error (by simp)
      · split
        · exact .error (by simp)
        · exact hcontent.bind fun content => .ok _ _
    unfold buildObjectsFrom
    split
    · exact .error (by simp)
    · exact hbuild.bind fun insert => (ih _).bind fun inserts => .ok _ _

theorem avoids_conflict_resolveObjectId (map : ObjectMap) (localId : ℤ) :
    Avoids .conflict (resolveObjectId map localId) := by
  unfold resolveObjectId
  split
  · exact .ok _ _
  · exact .error (by simp)

theorem avoids_conflict_buildSymbolInstances (projectId rootLayerId : ℤ) (map : ObjectMap)
    (objects : List UploadObject) :
    Avoids .conflict (buildSymbolInstances projectId rootLayerId map objects) := by
  induction objects with
  | nil => exact .ok _ _
  | cons object objects ih =>
    apply (avoids_conflict_resolveObjectId map object.localId).bind
    intro objectId
    refine Avoids.bind (Avoids.mapM (fun inst => ?_) _) fun rows => ih.bind fun others => .ok _ _
    apply (avoids_conflict_computeSymbolId projectId inst.symbolLocalId).bind
    intro symbolId
    dsimp only
    split
    · exact (avoids_conflict_validateType _ _ _).bind fun instanceType => .ok _ _
    · exact .ok _ _

theorem avoids_conflict_buildSymbolRefs (projectId rootLayerId : ℤ) (map : ObjectMap)
    (objects : List UploadObject) :
    Avoids .conflict (buildSymbolRefs projectId rootLayerId map objects) := by
  induction objects with
  | nil => exact .ok _ _
  | cons object objects ih =>
    apply (avoids_conflict_resolveObjectId map object.localId).bind
    intro objectId
    refine Avoids.bind (Avoids.mapM (fun reference => ?_) _) fun rows =>
      ih.bind fun others => .ok _ _
    exact (avoids_conflict_computeSymbolId projectId reference.toSymbolLocalId).bind
      fun symbolId => .ok _ _

theorem avoids_conflict_insertSymbolInstance (s : Store) (row : NewSymbolInstance) :
    Avoids .conflict (s.insertSymbolInstance row) := by
  unfold Store.insertSymbolInstance
  split
  · exact .error (by simp)
  split
  · exact .ok _ _
  split
  · exact .error (by simp)
  · exact .ok _ _

theorem avoids_conflict_insertSymbolRef (s : Store) (row : NewSymbolRef) :
    Avoids .conflict (s.insertSymbolRef row) := by
  unfold Store.insertSymbolRef
  split
  · exact .error (by simp)
  split
  · exact .ok _ _
  split
  · exact .error (by simp)
  · exact .ok _ _

/-- **No object chunk is answered with a conflict.** -/
theorem avoids_conflict_uploadObjectChunk (s : Store) (projectId seq : ℤ) (upload : UploadProject) :
    Avoids .conflict (s.uploadObjectChunk hashBytes projectId seq upload) := by
  unfold Store.uploadObjectChunk
  split
  · exact .error (by simp)
  split
  · exact .ok _ _
  split
  · exact .error (by simp)
  apply Avoids.bind _ fun s' => .ok _ _
  apply (avoids_conflict_rootLayerOf _ projectId).bind
  intro rootLayerId
  apply (avoids_conflict_buildObjectsFrom projectId rootLayerId [] upload.objects).bind
  intro inserts
  split
  · refine Avoids.bind (Avoids.foldlM (fun c rows => ?_) _ _) fun inserted => ?_
    · unfold Store.insertObjectRows
      split
      · exact .ok _ _
      · exact .error (by simp)
    apply (avoids_conflict_buildSymbolInstances projectId rootLayerId inserted.2 upload.objects).bind
    intro instances
    apply (Avoids.foldlM avoids_conflict_insertSymbolInstance instances inserted.1).bind
    intro s₁
    apply (avoids_conflict_buildSymbolRefs projectId rootLayerId inserted.2 upload.objects).bind
    intro refs
    exact Avoids.foldlM avoids_conflict_insertSymbolRef refs s₁
  · exact .error (by simp)

end Conflict

/-! ### The service -/

/-- The handlers of the server, which may also fail a request for a reason of its own; others
run the transactions that are allowed. -/
def uploadService (hashBytes : Bytes → Text) (allowed : Store → Request → Prop) :
    Service Store Call ServerJob Reply where
  start := .call
  serve s job s' out := (∃ rootHash, s.serveJob hashBytes rootHash job = (s', out)) ∨
    s' = s ∧ ∃ status, status ≠ 409 ∧ out = .inr (.refused status)
  others s s' := ∃ req c, allowed s req ∧ s.handle hashBytes req = .ok c ∧ s' = c.store

/-- Deleting a project is the one thing that takes from it. -/
def Call.isDelete : Call → Bool
  | .deleteProject _ => true
  | _ => false

/-- A request that comes before the project is asked for. -/
def Call.isEarly : Call → Bool
  | .listProjects => true
  | .deleteProject _ => true
  | _ => false

section Contract

variable {hashBytes : Bytes → Text} {allowed : Store → Request → Prop} {u : UploadArgs}
  {s s' : Store}

/-- The request whose transaction a job runs. -/
def ServerJob.request (rootHash : Bytes) : ServerJob → Option Request
  | .deleteMarked projectId => some (.deleteProject projectId)
  | .call (.deleteProject projectId) => some (.markDeleting projectId)
  | .call (.createProject projectName rootPath symbolChunks objectChunks) =>
    some (.uploadIndex ⟨projectName, rootPath, [], []⟩ (some symbolChunks) (some objectChunks)
      rootHash)
  | .call (.uploadContents contents) => some (.contents contents)
  | .call (.symbolChunk projectId seq chunk) => some (.symbolChunk projectId seq chunk)
  | .call (.objectChunk projectId seq chunk) => some (.objectChunk projectId seq chunk)
  | .call (.finalize projectId) => some (.finalize projectId)
  | _ => none

/-- **A transaction of a handler leaves the store alone or is that of its request.** -/
theorem Store.serveJob_cases {rootHash : Bytes} {job : ServerJob} {out : ServerJob ⊕ Reply}
    (h : s.serveJob hashBytes rootHash job = (s', out)) :
    s' = s ∨ ∃ req c, job.request rootHash = some req ∧ s.handle hashBytes req = .ok c ∧
      s' = c.store := by
  -- what a handler that runs one transaction leaves
  have hrespond : ∀ (req : Request) {α : Type} {call : Call}
      {result : Except UploadError (Committed α)} {reply : α → Reply} {f : α → Response},
      job.request rootHash = some req → s.handle hashBytes req = result.map (·.answer f) →
        s.respond call result reply = (s', out) →
          s' = s ∨ ∃ req c, job.request rootHash = some req ∧ s.handle hashBytes req = .ok c ∧
            s' = c.store := by
    intro req α call result reply f hjob hreq hresult
    cases result with
    | error e =>
      left
      exact (Prod.mk.inj hresult).1.symm
    | ok c =>
      right
      exact ⟨req, _, hjob, hreq, (Prod.mk.inj hresult).1.symm⟩
  cases job with
  | deleteMarked projectId =>
    right
    exact ⟨.deleteProject projectId, _, rfl, rfl, (Prod.mk.inj h).1.symm⟩
  | committedSymbolChunks projectId =>
    left
    exact (Prod.mk.inj h).1.symm
  | committedObjectChunks projectId symbolSeqs =>
    left
    exact (Prod.mk.inj h).1.symm
  | call call =>
    cases call with
    | listProjects =>
      left
      exact (Prod.mk.inj h).1.symm
    | deleteProject projectId =>
      right
      exact ⟨.markDeleting projectId, _, rfl, rfl, (Prod.mk.inj h).1.symm⟩
    | projectDetails projectId =>
      left
      simp only [serveJob] at h
      split at h
      · exact (Prod.mk.inj h).1.symm
      · exact (Prod.mk.inj h).1.symm
    | checkContents hashes =>
      left
      exact (Prod.mk.inj h).1.symm
    | _ =>
      simp only [serveJob] at h
      exact hrespond _ rfl rfl h

/-- Only the jobs of a deletion delete. -/
theorem ServerJob.of_deletes {rootHash : Bytes} {job : ServerJob} {req : Request} {projectId : ℤ}
    (h : job.request rootHash = some req) (hdeletes : req.deletes = some projectId) :
    job = .call (.deleteProject projectId) ∨ job = .deleteMarked projectId := by
  cases job with
  | deleteMarked id =>
    obtain rfl := Option.some.inj h
    obtain rfl := Option.some.inj hdeletes
    exact Or.inr rfl
  | call call =>
    cases call with
    | deleteProject id =>
      obtain rfl := Option.some.inj h
      obtain rfl := Option.some.inj hdeletes
      exact Or.inl rfl
    | listProjects | projectDetails | checkContents => cases h
    | _ =>
      obtain rfl := Option.some.inj h
      cases hdeletes
  | _ => cases h

/-- What each request of the upload requires, and what its answer tells.  A deletion keeps
nothing that the requests after it rely on. -/
def uploadTerms (u : UploadArgs) : Terms Store Call ServerJob Reply where
  Inv := Store.Filed
  Requires
    | .createProject projectName _ _ _, _ => projectName = u.projectName
    | .projectDetails projectId, s => s.Live u.name projectId
    | .symbolChunk projectId seq chunk, s =>
      s.Live u.name projectId ∧ (seq, chunk) ∈ u.symbolChunks
    | .objectChunk projectId seq chunk, s =>
      s.Live u.name projectId ∧ (seq, chunk) ∈ u.objectChunks ∧
        ∀ c ∈ u.symbolChunks, ⟨projectId, c.1⟩ ∈ s.symbolChunks
    | .finalize projectId, s => s.Live u.name projectId
    | _, _ => True
  Progress
    | call, .call call', _ => call' = call
    | .deleteProject projectId, .deleteMarked projectId', _ => projectId' = projectId
    | .projectDetails projectId, .committedSymbolChunks projectId', _ => projectId' = projectId
    | .projectDetails projectId, .committedObjectChunks projectId' symbolSeqs, s =>
      projectId' = projectId ∧ ∀ seq ∈ symbolSeqs, ⟨projectId, seq⟩ ∈ s.symbolChunks
    | _, _, _ => False
  Ensures
    | .createProject _ _ _ _, .project projectId _, s => s.Live u.name projectId
    | .projectDetails projectId, .details symbolSeqs objectSeqs, s =>
      (∀ seq ∈ symbolSeqs, ⟨projectId, seq⟩ ∈ s.symbolChunks) ∧
        ∀ seq ∈ objectSeqs, ⟨projectId, seq⟩ ∈ s.objectChunks
    | .checkContents _, .present hashes, s => ∀ hash ∈ hashes, s.Present hash
    | .uploadContents contents, .ok, s => ∀ entry ∈ contents, s.Present entry.contentHash
    | .symbolChunk projectId seq _, reply, s =>
      reply.accepted = true → ⟨projectId, seq⟩ ∈ s.symbolChunks
    | .objectChunk projectId seq _, reply, s =>
      reply.accepted = true → ⟨projectId, seq⟩ ∈ s.objectChunks
    | .finalize projectId, .ok, s => s.Finished u.name projectId
    | _, _, _ => True
  Interferes call call' := call.isDelete = true ∧ call'.isEarly = false

/-- A transaction of another request keeps what counts, or the request is an early one. -/
theorem keeps_of_serve {call : Call} {job : ServerJob} {out : ServerJob ⊕ Reply} (hs : s.Filed)
    (hprogress : (uploadTerms u).Progress call job s)
    (hserve : (uploadService hashBytes allowed).serve s job s' out) :
    call.isDelete = true ∨ Store.Keeps u.name s s' := by
  rcases hserve with ⟨rootHash, hserve⟩ | ⟨rfl, -⟩
  · rcases Store.serveJob_cases hserve with rfl | ⟨req, c, hjob, hreq, rfl⟩
    · exact Or.inr (.refl _)
    · cases hdelete : call.isDelete with
      | true => exact Or.inl rfl
      | false =>
        right
        refine .handle hs hreq fun projectId hid => ?_
        rcases ServerJob.of_deletes hjob hid with rfl | rfl
        · obtain rfl : .deleteProject projectId = call := hprogress
          cases hdelete
        · cases call with
          | deleteProject => cases hdelete
          | _ => exact absurd hprogress id
  · exact Or.inr (.refl _)

/-- What the terms say survives what keeps the live projects. -/
theorem uploadTerms_mono (hkeeps : Store.Keeps u.name s s') (call : Call) :
    ((uploadTerms u).Requires call s → (uploadTerms u).Requires call s') ∧
      (∀ job, (uploadTerms u).Requires call s → (uploadTerms u).Progress call job s →
        (uploadTerms u).Progress call job s') ∧
      ∀ reply, (uploadTerms u).Requires call s → (uploadTerms u).Ensures call reply s →
        (uploadTerms u).Ensures call reply s' := by
  refine ⟨fun h => ?_, fun job hlive h => ?_, fun reply hlive h => ?_⟩
  · cases call with
    | projectDetails projectId => exact hkeeps.live h
    | symbolChunk projectId seq chunk => exact ⟨hkeeps.live h.1, h.2⟩
    | objectChunk projectId seq chunk =>
      exact ⟨hkeeps.live h.1, h.2.1, fun c hc => hkeeps.symbolChunks h.1 (h.2.2 c hc)⟩
    | finalize projectId => exact hkeeps.live h
    | _ => exact h
  · cases job with
    | call => exact h
    | deleteMarked =>
      cases call with
      | deleteProject => exact h
      | _ => exact absurd h id
    | committedSymbolChunks =>
      cases call with
      | projectDetails => exact h
      | _ => exact absurd h id
    | committedObjectChunks =>
      cases call with
      | projectDetails => exact ⟨h.1, fun seq hseq => hkeeps.symbolChunks hlive (h.2 seq hseq)⟩
      | _ => exact absurd h id
  · cases call with
    | createProject =>
      cases reply with
      | project => exact hkeeps.live h
      | _ => exact trivial
    | projectDetails =>
      cases reply with
      | details =>
        exact ⟨fun seq hseq => hkeeps.symbolChunks hlive (h.1 seq hseq),
          fun seq hseq => hkeeps.objectChunks hlive (h.2 seq hseq)⟩
      | _ => exact trivial
    | checkContents =>
      cases reply with
      | present => exact fun hash hhash => hkeeps.present hash (h hash hhash)
      | _ => exact trivial
    | uploadContents =>
      cases reply with
      | ok => exact fun entry hentry => hkeeps.present _ (h entry hentry)
      | _ => exact trivial
    | symbolChunk => exact fun hreply => hkeeps.symbolChunks hlive.1 (h hreply)
    | objectChunk => exact fun hreply => hkeeps.objectChunks hlive.1 (h hreply)
    | finalize =>
      cases reply with
      | ok => exact hkeeps.finished h
      | _ => exact trivial
    | _ => exact trivial

theorem filed_of_serve {job : ServerJob} {out : ServerJob ⊕ Reply} (hs : s.Filed)
    (hserve : (uploadService hashBytes allowed).serve s job s' out) : s'.Filed := by
  rcases hserve with ⟨rootHash, hserve⟩ | ⟨rfl, -⟩
  · rcases Store.serveJob_cases hserve with rfl | ⟨req, c, -, hreq, rfl⟩
    · exact hs
    · exact hs.handle hreq
  · exact hs

theorem mem_committedSeqs {rows : List ProjectChunk} {projectId seq : ℤ} :
    seq ∈ Store.committedSeqs rows projectId ↔ ⟨projectId, seq⟩ ∈ rows := by
  rw [Store.committedSeqs, List.mem_insertionSort, List.mem_map]
  constructor
  · intro h
    obtain ⟨c, hmem, rfl⟩ := h
    obtain ⟨hrow, hid⟩ := List.mem_filter.mp hmem
    obtain rfl := beq_iff_eq.mp hid
    exact hrow
  · intro h
    exact ⟨_, List.mem_filter.mpr ⟨h, beq_self_eq_true _⟩, rfl⟩

/-- A transaction that answers without a conflict has been committed when the answer says so. -/
theorem Store.eq_of_respond {α : Type} {call : Call} {result : Except UploadError (Committed α)}
    {reply : α → Reply} {rep : Reply} (h : s.respond call result reply = (s', .inr rep)) :
    (∃ c, result = .ok c ∧ s' = c.store ∧ rep = reply c.value) ∨
      ∃ e, result = .error e ∧ rep = .refused (e.status call) := by
  cases result with
  | ok c =>
    obtain ⟨hstore, hrep⟩ := Prod.mk.inj h
    exact Or.inl ⟨c, rfl, hstore.symm, (Sum.inr.inj hrep).symm⟩
  | error e => exact Or.inr ⟨e, rfl, (Sum.inr.inj (Prod.mk.inj h).2).symm⟩

/-- The project that is created or resumed is live. -/
theorem live_of_uploadIndex {upload : UploadProject} {symbolTotal objectTotal : Option ℤ}
    {rootHash : Bytes} {c : Committed (ℤ × Bool)}
    (h : s.uploadIndex upload symbolTotal objectTotal rootHash = .ok c) :
    c.store.Live (trim upload.projectName) c.value.1 := by
  rcases Store.uploadIndex_cases h with ⟨p, hfind, hstatus, -, rfl⟩ |
    ⟨s₁, created, -, hcreated, hvalue, hstore⟩
  · exact ⟨p, List.mem_of_find?_eq_some hfind, rfl, by simpa using List.find?_some hfind,
      Or.inl hstatus⟩
  · obtain ⟨hid, -, hprojects, -⟩ := Store.insertProject_ok hcreated
    rw [hstore, hvalue]
    refine ⟨⟨s₁.nextProjectId, trim upload.projectName, trim upload.rootPath, .uploading,
      symbolTotal, objectTotal, s₁.nextRootLayerId⟩, ?_, hid.symm, rfl, Or.inl rfl⟩
    rw [hprojects]
    exact List.mem_append_right _ (List.mem_singleton_self _)

/-- A symbol chunk that is answered for is committed. -/
theorem mem_symbolChunks_of_upload {projectId seq : ℤ} {upload : UploadProject} {c : Committed Unit}
    (h : s.uploadSymbolChunk projectId seq upload = .ok c) :
    ⟨projectId, seq⟩ ∈ c.store.symbolChunks := by
  obtain ⟨-, ⟨hmem, hstore⟩ | ⟨-, -, hinsert⟩⟩ := Store.uploadSymbolChunk_cases h
  · rw [hstore]
    exact hmem
  · rw [(Store.sameUploads_insertSymbols hinsert).symbolChunks]
    exact List.mem_append_right _ (List.mem_singleton_self _)

/-- An object chunk that is answered for is committed. -/
theorem mem_objectChunks_of_upload {projectId seq : ℤ} {upload : UploadProject} {c : Committed Unit}
    (h : s.uploadObjectChunk hashBytes projectId seq upload = .ok c) :
    ⟨projectId, seq⟩ ∈ c.store.objectChunks := by
  obtain ⟨-, ⟨hmem, hstore⟩ | ⟨-, -, hinsert⟩⟩ := Store.uploadObjectChunk_cases h
  · rw [hstore]
    exact hmem
  · rw [(Store.sameUploads_doUploadObjects hinsert).objectChunks]
    exact List.mem_append_right _ (List.mem_singleton_self _)

/-- A project that is finalised is complete, under the name it was live under. -/
theorem finished_of_finalizeProject {name : Text} {projectId : ℤ} {c : Committed Bool}
    (hs : s.Filed) (hlive : s.Live name projectId) (h : s.finalizeProject projectId = .ok c)
    (hfound : c.value = true) : c.store.Finished name projectId := by
  obtain ⟨p, hp, rfl, hname, -⟩ := hlive
  have hfind := Store.findProject_of_mem hs hp
  unfold Store.finalizeProject at h
  rw [hfind] at h
  dsimp only at h
  split at h
  · next hcomplete =>
    obtain rfl := Except.ok.inj h
    exact ⟨p, hp, rfl, hname, hcomplete⟩
  · obtain ⟨⟨⟩, -, h⟩ := Fallible.bind_eq_ok.mp h
    obtain ⟨⟨⟩, -, h⟩ := Fallible.bind_eq_ok.mp h
    obtain rfl := Except.ok.inj h
    refine ⟨_, List.mem_map_of_mem hp, ?_⟩
    rw [if_pos rfl]
    exact ⟨rfl, hname, rfl⟩
  · cases h

/-- What an answer tells. -/
theorem ensures_of_serve {call : Call} {job : ServerJob} {reply : Reply} (hs : s.Filed)
    (hrequires : (uploadTerms u).Requires call s) (hprogress : (uploadTerms u).Progress call job s)
    (hserve : (uploadService hashBytes allowed).serve s job s' (.inr reply)) :
    (uploadTerms u).Ensures call reply s' := by
  rcases hserve with ⟨rootHash, hserve⟩ | ⟨rfl, status, hstatus, hreply⟩
  swap
  · -- a failure tells nothing, and is no conflict
    obtain rfl := Sum.inr.inj hreply
    cases call with
    | symbolChunk => exact fun h => absurd (beq_iff_eq.mp h) hstatus
    | objectChunk => exact fun h => absurd (beq_iff_eq.mp h) hstatus
    | _ => exact trivial
  cases call with
  | listProjects => exact trivial
  | deleteProject => exact trivial
  | createProject projectName rootPath symbolChunks objectChunks =>
    cases job with
    | call call' =>
      obtain rfl : call' = _ := hprogress
      simp only [Store.serveJob] at hserve
      rcases Store.eq_of_respond hserve with ⟨c, hc, rfl, rfl⟩ | ⟨e, -, rfl⟩
      · have hlive := live_of_uploadIndex hc
        rw [show projectName = u.projectName from hrequires] at hlive
        exact hlive
      · exact trivial
    | _ => exact absurd hprogress id
  | projectDetails projectId =>
    cases job with
    | call call' =>
      obtain rfl : call' = _ := hprogress
      simp only [Store.serveJob] at hserve
      split at hserve
      · cases (Prod.mk.inj hserve).2
      · obtain rfl := Sum.inr.inj (Prod.mk.inj hserve).2
        exact trivial
    | committedObjectChunks projectId' symbolSeqs =>
      obtain ⟨rfl, hsymbols⟩ : projectId' = projectId ∧ _ := hprogress
      obtain ⟨rfl, hreply⟩ := Prod.mk.inj hserve
      obtain rfl := Sum.inr.inj hreply
      exact ⟨hsymbols, fun seq hseq => mem_committedSeqs.mp hseq⟩
    | committedSymbolChunks projectId' => cases (Prod.mk.inj hserve).2
    | deleteMarked => exact absurd hprogress id
  | checkContents hashes =>
    cases job with
    | call call' =>
      obtain rfl : call' = _ := hprogress
      obtain ⟨rfl, hreply⟩ := Prod.mk.inj hserve
      obtain rfl := Sum.inr.inj hreply
      intro hash hhash
      obtain ⟨row, hrow, rfl⟩ := List.mem_map.mp hhash
      exact ⟨row, List.mem_of_mem_filter hrow, rfl⟩
    | _ => exact absurd hprogress id
  | uploadContents contents =>
    cases job with
    | call call' =>
      obtain rfl : call' = _ := hprogress
      simp only [Store.serveJob] at hserve
      rcases Store.eq_of_respond hserve with ⟨c, hc, rfl, rfl⟩ | ⟨e, -, rfl⟩
      · obtain ⟨rows, hrows, hc⟩ := Fallible.bind_eq_ok.mp hc
        obtain rfl := Except.ok.inj hc
        obtain ⟨-, rfl⟩ := Store.checkContents_eq_ok hrows
        intro entry hentry
        exact (Store.contentGrows_insertContents (fun _ _ => trivial) s).2 _
          (List.mem_map_of_mem hentry)
      · exact trivial
    | _ => exact absurd hprogress id
  | symbolChunk projectId seq chunk =>
    cases job with
    | call call' =>
      obtain rfl : call' = _ := hprogress
      simp only [Store.serveJob] at hserve
      rcases Store.eq_of_respond hserve with ⟨c, hc, rfl, rfl⟩ | ⟨e, he, rfl⟩
      · exact fun _ => mem_symbolChunks_of_upload hc
      · have hne : e ≠ .conflict := by
          intro heq
          exact avoids_conflict_uploadSymbolChunk s projectId seq chunk (heq ▸ he)
        cases e with
        | conflict => exact absurd rfl hne
        | _ => exact fun h => absurd h Bool.false_ne_true
    | _ => exact absurd hprogress id
  | objectChunk projectId seq chunk =>
    cases job with
    | call call' =>
      obtain rfl : call' = _ := hprogress
      simp only [Store.serveJob] at hserve
      rcases Store.eq_of_respond hserve with ⟨c, hc, rfl, rfl⟩ | ⟨e, he, rfl⟩
      · exact fun _ => mem_objectChunks_of_upload hc
      · have hne : e ≠ .conflict := by
          intro heq
          exact avoids_conflict_uploadObjectChunk s projectId seq chunk (heq ▸ he)
        cases e with
        | conflict => exact absurd rfl hne
        | _ => exact fun h => absurd h Bool.false_ne_true
    | _ => exact absurd hprogress id
  | finalize projectId =>
    cases job with
    | call call' =>
      obtain rfl : call' = _ := hprogress
      simp only [Store.serveJob] at hserve
      rcases Store.eq_of_respond hserve with ⟨c, hc, rfl, rfl⟩ | ⟨e, -, rfl⟩
      · cases hfound : c.value with
        | false => exact trivial
        | true => exact finished_of_finalizeProject hs hrequires hc hfound
      · exact trivial
    | _ => exact absurd hprogress id

/-- A job goes on with what it has found out. -/
theorem progress_of_serve {call : Call} {job job' : ServerJob}
    (hprogress : (uploadTerms u).Progress call job s)
    (hserve : (uploadService hashBytes allowed).serve s job s' (.inl job')) :
    (uploadTerms u).Progress call job' s' := by
  rcases hserve with ⟨rootHash, hserve⟩ | ⟨-, status, -, hout⟩
  swap
  · cases hout
  have hrespond : ∀ {α : Type} {call : Call} {result : Except UploadError (Committed α)}
      {reply : α → Reply}, s.respond call result reply ≠ (s', .inl job') := by
    intro α call result reply h
    cases result <;> cases (Prod.mk.inj h).2
  cases job with
  | deleteMarked => cases (Prod.mk.inj hserve).2
  | committedSymbolChunks projectId =>
    obtain ⟨rfl, hjob⟩ := Prod.mk.inj hserve
    obtain rfl := Sum.inl.inj hjob
    cases call with
    | projectDetails =>
      obtain rfl : projectId = _ := hprogress
      exact ⟨rfl, fun seq hseq => mem_committedSeqs.mp hseq⟩
    | _ => exact absurd hprogress id
  | committedObjectChunks => cases (Prod.mk.inj hserve).2
  | call call' =>
    obtain rfl : call' = call := hprogress
    cases call' with
    | listProjects => cases (Prod.mk.inj hserve).2
    | deleteProject projectId =>
      have hjob := (Prod.mk.inj hserve).2
      split at hjob
      · obtain rfl := Sum.inl.inj hjob
        exact rfl
      · cases hjob
    | projectDetails projectId =>
      simp only [Store.serveJob] at hserve
      split at hserve
      · obtain rfl := Sum.inl.inj (Prod.mk.inj hserve).2
        exact rfl
      · cases (Prod.mk.inj hserve).2
    | checkContents => cases (Prod.mk.inj hserve).2
    | _ =>
      simp only [Store.serveJob] at hserve
      exact absurd hserve hrespond

/-- What holds for a request survives, when it survives what keeps the live projects, and the
requests that come before a deletion rely on nothing. -/
theorem uploadKeeps (hallowed : ∀ s req, allowed s req → Store.Spares u.name s req) {call : Call}
    {P : Store → Prop}
    (hkeeps : ∀ {s s'}, Store.Keeps u.name s s' → (uploadTerms u).Requires call s → P s → P s')
    (hearly : call.isEarly = true → ∀ {s s'}, P s → P s') :
    (uploadTerms u).Keeps (uploadService hashBytes allowed) call P where
  serve := by
    intro call₀ job s s' out hs hrequires hP _ hprogress hquiet hserve
    rcases keeps_of_serve hs hprogress hserve with hdelete | hkept
    · cases hcall : call.isEarly with
      | true => exact hearly hcall hP
      | false => exact absurd ⟨hdelete, hcall⟩ hquiet
    · exact hkeeps hkept hrequires hP
  others := by
    intro s s' hs hrequires hP hothers
    obtain ⟨req, c, hreq, hc, rfl⟩ := hothers
    exact hkeeps (.handle hs hc (hallowed s req hreq)) hrequires hP

variable (hashBytes) in
/-- **The contract of the upload**, as long as others spare the project. -/
def uploadContract (hallowed : ∀ s req, allowed s req → Store.Spares u.name s req) :
    Contract (uploadService hashBytes allowed) where
  toTerms := uploadTerms u
  start := fun _ _ => rfl
  inv_serve := fun hs _ _ hserve => filed_of_serve hs hserve
  inv_others := by
    intro s s' hs hothers
    obtain ⟨req, c, -, hreq, rfl⟩ := hothers
    exact hs.handle hreq
  work := fun _ _ hprogress hserve => progress_of_serve hprogress hserve
  answer := fun hs hrequires hprogress hserve => ensures_of_serve hs hrequires hprogress hserve
  requires := fun call => uploadKeeps hallowed (fun hkept _ => (uploadTerms_mono hkept call).1) <| by
    intro hearly s s' h
    cases call with
    | listProjects => exact h
    | deleteProject => exact h
    | _ => cases hearly
  progress := fun call job => uploadKeeps hallowed
      (fun hkept => (uploadTerms_mono hkept call).2.1 job) <| by
    intro hearly s s' h
    cases call with
    | listProjects => cases job <;> exact h
    | deleteProject => cases job <;> exact h
    | _ => cases hearly
  ensures := fun call reply => uploadKeeps hallowed
      (fun hkept => (uploadTerms_mono hkept call).2.2 reply) <| by
    intro hearly s s' h
    cases call with
    | listProjects => exact trivial
    | deleteProject => exact trivial
    | _ => cases hearly

end Contract

end Askl
