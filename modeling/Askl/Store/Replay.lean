import Askl.Store.Catalogue
import Askl.Store.Completeness

/-!
# Object chunks in any order

The client keeps several object chunks in flight and sends them again when it has no answer,
so they come in any order and any number of times.  The record of a chunk makes a second
delivery of it idle.  The order still shows where two chunks touch one row: of two objects
whose paths are normalised to the same one, the columns of the last chunk stay, and of two
instances of one key the type of the first; and a chunk that names the hash of a content is
refused until the content is there, which another chunk may bring along.

## Main definitions

* `Store.deliverChunks` — deliver object chunks; a request that fails changes nothing.
* `Store.SameRows` — the same rows of a project, up to ids.
* `Store.catalogue` — the rows of a project by path, as the tables of a receiver.
* `chunkMessages`, `ChunksSettled` — the chunks as messages, and the condition on them.

## Main results

* `Store.catalogue_deliverChunk` — delivering a chunk takes a message.
* `Store.sameRows_iff` — the rows are the same iff the catalogues agree.
* `constrained_of_run` — every store that requests lead to is constrained.
* `sameRows_iff_chunksSettled` — **when the order of delivery does not matter.**
* `chunksSettled_of_disjointPaths` — chunks with paths of their own are settled.
* `not_sameRows_of_samePath` — two chunks with objects at one path.
-/

namespace Askl

namespace Store

/-! ### Deliveries -/

section Deliver

variable (hashBytes : Bytes → Text) (projectId : ℤ) (uploads : List UploadProject)

/-- Deliver one of the object chunks of an upload.  A request that fails is rolled back. -/
def deliverChunk (s : Store) (seq : Fin uploads.length) : Store :=
  match s.uploadObjectChunk hashBytes projectId seq (uploads.get seq) with
  | .ok c => c.store
  | .error _ => s

/-- Deliver object chunks in the order of a list. -/
def deliverChunks (s : Store) (deliveries : List (Fin uploads.length)) : Store :=
  deliveries.foldl (deliverChunk hashBytes projectId uploads) s

end Deliver

/-! ### The rows of a project -/

variable (projectId : ℤ)

/-- The objects of a project with their contents. -/
def objectRows (s : Store) : List (NewObject × Option Bytes) :=
  (s.objects.filter (·.row.projectId == projectId)).map fun o =>
    (o.row, s.findContent o.row.contentHash)

/-- The path of an object of a project. -/
def pathOf (s : Store) (objectId : ℤ) : Option Text :=
  (s.objects.find? fun o => o.id == objectId && o.row.projectId == projectId).map
    (·.row.filesystemPath)

/-- The instances in the objects of a project, by the paths of these. -/
def instanceRows (s : Store) : List (Text × ℤ × Int4range × ℤ × ℤ) :=
  s.symbolInstances.filterMap fun i => (s.pathOf projectId i.objectId).map fun path =>
    (path, i.symbol, i.offsetRange, i.layer, i.instanceType)

/-- The references from the objects of a project, by the paths of these. -/
def refRows (s : Store) : List (Text × ℤ × Int4range × ℤ) :=
  s.symbolRefs.filterMap fun r => (s.pathOf projectId r.fromObject).map fun path =>
    (path, r.toSymbol, r.fromOffsetRange, r.layer)

/-- The same rows of a project, up to generated ids and their order in the tables. -/
structure SameRows (s s' : Store) : Prop where
  objects : (s.objectRows projectId).Perm (s'.objectRows projectId)
  instances : (s.instanceRows projectId).Perm (s'.instanceRows projectId)
  refs : (s.refRows projectId).Perm (s'.refRows projectId)

instance (s s' : Store) : Decidable (SameRows projectId s s') :=
  decidable_of_iff ((s.objectRows projectId).Perm (s'.objectRows projectId) ∧
      (s.instanceRows projectId).Perm (s'.instanceRows projectId) ∧
      (s.refRows projectId).Perm (s'.refRows projectId))
    ⟨fun h => ⟨h.1, h.2.1, h.2.2⟩, fun h => ⟨h.objects, h.instances, h.refs⟩⟩

variable {s : Store} {projectId}

/-! ### The rows by path -/

theorem Constrained.objectAt_eq_some (hs : s.Constrained) {path : Text} {row : NewObject} :
    s.objectAt projectId path = some row ↔
      (∃ o ∈ s.objects, o.row = row) ∧ row.projectId = projectId ∧ row.filesystemPath = path := by
  rw [objectAt, Option.map_eq_some_iff]
  constructor
  · rintro ⟨o, ho, rfl⟩
    obtain ⟨hmem, hproject, hpath⟩ := hs.findObject_eq_some.mp ho
    exact ⟨⟨o, hmem, rfl⟩, hproject, hpath⟩
  · rintro ⟨⟨o, hmem, rfl⟩, hproject, hpath⟩
    exact ⟨o, hs.findObject_eq_some.mpr ⟨hmem, hproject, hpath⟩, rfl⟩

theorem Constrained.mem_objectRows (hs : s.Constrained) {row : NewObject} {content : Option Bytes} :
    (row, content) ∈ s.objectRows projectId ↔
      s.objectAt projectId row.filesystemPath = some row ∧ s.findContent row.contentHash = content := by
  rw [hs.objectAt_eq_some, objectRows, List.mem_map]
  constructor
  · rintro ⟨o, ho, heq⟩
    obtain ⟨rfl, rfl⟩ := Prod.mk.inj heq
    rw [List.mem_filter, beq_iff_eq] at ho
    exact ⟨⟨⟨o, ho.1, rfl⟩, ho.2, rfl⟩, rfl⟩
  · rintro ⟨⟨⟨o, ho, rfl⟩, hproject, -⟩, rfl⟩
    exact ⟨o, List.mem_filter.mpr ⟨ho, beq_iff_eq.mpr hproject⟩, rfl⟩

theorem Constrained.pathOf_eq_some (hs : s.Constrained) {objectId : ℤ} {path : Text} :
    s.pathOf projectId objectId = some path ↔
      ∃ o, s.findObject projectId path = some o ∧ o.id = objectId := by
  rw [pathOf, Option.map_eq_some_iff]
  constructor
  · rintro ⟨o, ho, rfl⟩
    have hkey := List.find?_some ho
    rw [Bool.and_eq_true, beq_iff_eq, beq_iff_eq] at hkey
    exact ⟨o, hs.findObject_eq_some.mpr ⟨List.mem_of_find?_eq_some ho, hkey.2, rfl⟩, hkey.1⟩
  · rintro ⟨o, ho, rfl⟩
    obtain ⟨hmem, hproject, hpath⟩ := hs.findObject_eq_some.mp ho
    cases hfind : s.objects.find? fun o' => o'.id == o.id && o'.row.projectId == projectId with
    | none =>
      have hnot := List.find?_eq_none.mp hfind o hmem
      simp [hproject] at hnot
    | some o' =>
      have hkey := List.find?_some hfind
      rw [Bool.and_eq_true, beq_iff_eq, beq_iff_eq] at hkey
      rw [hs.eq_of_id (List.mem_of_find?_eq_some hfind) hmem hkey.1]
      exact ⟨o, rfl, hpath⟩

theorem Constrained.mem_instanceRows (hs : s.Constrained) {path : Text} {symbol layer type : ℤ}
    {offsetRange : Int4range} :
    (path, symbol, offsetRange, layer, type) ∈ s.instanceRows projectId ↔
      s.columnAt projectId (.inst symbol path offsetRange layer) = some type := by
  simp only [instanceRows, List.mem_filterMap, columnAt, Option.bind_eq_some_iff,
    Option.map_eq_some_iff, Prod.mk.injEq, hs.pathOf_eq_some, hs.findInstance_eq_some, instanceKey]
  constructor
  · rintro ⟨i, hi, path, ⟨o, ho, hid⟩, rfl, rfl, rfl, rfl, rfl⟩
    exact ⟨o, ho, i, ⟨hi, rfl, hid.symm, rfl, rfl⟩, rfl⟩
  · rintro ⟨o, ho, i, ⟨hi, rfl, hid, rfl, rfl⟩, rfl⟩
    exact ⟨i, hi, path, ⟨o, ho, hid.symm⟩, rfl, rfl, rfl, rfl, rfl⟩

theorem Constrained.mem_refRows (hs : s.Constrained) {path : Text} {toSymbol layer : ℤ}
    {fromOffsetRange : Int4range} :
    (path, toSymbol, fromOffsetRange, layer) ∈ s.refRows projectId ↔
      s.columnAt projectId (.ref toSymbol path fromOffsetRange layer) = some () := by
  simp only [refRows, List.mem_filterMap, columnAt, Option.bind_eq_some_iff,
    Option.map_eq_some_iff, Prod.mk.injEq, hs.pathOf_eq_some, hs.findRef_eq_some, refKey]
  constructor
  · rintro ⟨r, hr, path, ⟨o, ho, hid⟩, rfl, rfl, rfl, rfl⟩
    exact ⟨o, ho, r, ⟨hr, rfl, hid.symm, rfl, rfl⟩, trivial⟩
  · rintro ⟨o, ho, r, ⟨hr, rfl, hid, rfl, rfl⟩, -⟩
    exact ⟨r, hr, path, ⟨o, ho, hid.symm⟩, rfl, rfl, rfl, rfl⟩

/-! ### No row is there twice -/

theorem Constrained.nodup_objectRows (hs : s.Constrained) : (s.objectRows projectId).Nodup := by
  refine ((List.Nodup.of_map _ hs.objectPaths).filter _).map_on ?_
  intro o ho o' ho' heq
  have hrow : o.row = o'.row := (Prod.mk.inj heq).1
  exact hs.eq_of_path (List.mem_filter.mp ho).1 (List.mem_filter.mp ho').1 (by rw [hrow])
    (by rw [hrow])

theorem Constrained.objectId_eq_of_pathOf (hs : s.Constrained) {objectId objectId' : ℤ} {path : Text}
    (h : s.pathOf projectId objectId = some path) (h' : s.pathOf projectId objectId' = some path) :
    objectId = objectId' := by
  obtain ⟨o, ho, rfl⟩ := hs.pathOf_eq_some.mp h
  obtain ⟨o', ho', rfl⟩ := hs.pathOf_eq_some.mp h'
  rw [ho] at ho'
  rw [Option.some.inj ho']

theorem Constrained.nodup_instanceRows (hs : s.Constrained) :
    (s.instanceRows projectId).Nodup := by
  have hkeys : s.symbolInstances.Pairwise fun i i' => instanceKey i ≠ instanceKey i' :=
    List.pairwise_map.mp hs.instanceKeys
  refine List.pairwise_filterMap.mpr (hkeys.imp ?_)
  rintro i i' hne x hx _ hx' rfl
  obtain ⟨path, hpath, rfl⟩ := Option.map_eq_some_iff.mp hx
  obtain ⟨path', hpath', heq⟩ := Option.map_eq_some_iff.mp hx'
  simp only [Prod.mk.injEq] at heq
  obtain ⟨rfl, hsymbol, hrange, hlayer, -⟩ := heq
  refine hne ?_
  simp only [instanceKey, Prod.mk.injEq]
  exact ⟨hsymbol.symm, hs.objectId_eq_of_pathOf hpath hpath', hrange.symm, hlayer.symm⟩

theorem Constrained.nodup_refRows (hs : s.Constrained) : (s.refRows projectId).Nodup := by
  have hkeys : s.symbolRefs.Pairwise fun r r' => refKey r ≠ refKey r' :=
    List.pairwise_map.mp hs.refKeys
  refine List.pairwise_filterMap.mpr (hkeys.imp ?_)
  rintro r r' hne x hx _ hx' rfl
  obtain ⟨path, hpath, rfl⟩ := Option.map_eq_some_iff.mp hx
  obtain ⟨path', hpath', heq⟩ := Option.map_eq_some_iff.mp hx'
  simp only [Prod.mk.injEq] at heq
  obtain ⟨rfl, hsymbol, hrange, hlayer⟩ := heq
  refine hne ?_
  simp only [refKey, Prod.mk.injEq]
  exact ⟨hsymbol.symm, hs.objectId_eq_of_pathOf hpath hpath', hrange.symm, hlayer.symm⟩

/-! ### The catalogue -/

/-- The rows of a project by path, and which of its object chunks are committed. -/
def catalogue (projectId : ℤ) (total : ℕ) (s : Store) :
    Deliveries.Receiver (Fin total) Text NewObject RowKey RowKey.Column where
  latest := s.objectAt projectId
  fill := s.columnAt projectId
  taken := {seq | ⟨projectId, seq⟩ ∈ s.objectChunks}

end Store

/-- Instances and references are rows of the project; contents are when an object names them. -/
def RowKey.IsRow : RowKey → Prop
  | .content _ => False
  | _ => True

/-- An object names the hash of its content. -/
def NewObject.Names (row : NewObject) (k : RowKey) : Prop := k = .content row.contentHash

/-- The object chunks of an upload, as messages. -/
def chunkMessages (hashBytes : Bytes → Text) (s : Store) (projectId : ℤ)
    (uploads : List UploadProject) (seq : Fin uploads.length) :
    Option (Deliveries.Writes Text NewObject RowKey RowKey.Column) :=
  chunkWrites hashBytes s projectId (uploads.get seq)

/-- The chunks of an upload are settled: those that can be taken agree on the objects they put at
one path; the first ones that can be taken with a row of a key that is not there agree on its
columns; and whatever a chunk writes that has to wait for the contents of others is there
already or is written by one that has not to wait. -/
def ChunksSettled (hashBytes : Bytes → Text) (s : Store) (projectId : ℤ)
    (uploads : List UploadProject) : Prop :=
  Deliveries.Settled (chunkMessages hashBytes s projectId uploads)
    (s.catalogue projectId uploads.length) RowKey.IsRow NewObject.Names

namespace Store

/-- **The rows of a project are the same iff the catalogues agree.** -/
theorem sameRows_iff (total : ℕ) {s s' : Store} {projectId : ℤ} (hs : s.Constrained)
    (hs' : s'.Constrained) :
    SameRows projectId s s' ↔ Deliveries.Same RowKey.IsRow NewObject.Names
      (s.catalogue projectId total) (s'.catalogue projectId total) := by
  constructor
  · rintro ⟨hobjects, hinstances, hrefs⟩
    refine ⟨funext fun path => Option.ext fun row => ?_, fun k hk => ?_⟩
    · show s.objectAt projectId path = some row ↔ s'.objectAt projectId path = some row
      have hpath : ∀ {s : Store}, s.Constrained → (s.objectAt projectId path = some row ↔
          row.filesystemPath = path ∧
            ∃ content, (row, content) ∈ s.objectRows projectId) := by
        intro s hs
        simp only [hs.mem_objectRows]
        constructor
        · intro h
          obtain ⟨-, -, rfl⟩ := hs.objectAt_eq_some.mp h
          exact ⟨rfl, _, h, rfl⟩
        · rintro ⟨rfl, content, h, -⟩
          exact h
      rw [hpath hs, hpath hs']
      simp only [hobjects.mem_iff]
    · show s.columnAt projectId k = s'.columnAt projectId k
      cases k with
      | content contentHash =>
        obtain ⟨path, row, hrow, hname⟩ := hk.resolve_left id
        obtain rfl := RowKey.content.inj hname
        have hrow : s.objectAt projectId path = some row := hrow
        obtain ⟨-, -, rfl⟩ := hs.objectAt_eq_some.mp hrow
        have hmem := hobjects.mem_iff.mp (hs.mem_objectRows.mpr ⟨hrow, rfl⟩)
        exact (hs'.mem_objectRows.mp hmem).2.symm
      | inst symbol path offsetRange layer =>
        refine Option.ext fun type => ?_
        rw [← hs.mem_instanceRows, ← hs'.mem_instanceRows, hinstances.mem_iff]
      | ref toSymbol path fromOffsetRange layer =>
        refine Option.ext fun _ => ?_
        rw [← hs.mem_refRows, ← hs'.mem_refRows, hrefs.mem_iff]
  · rintro ⟨hover, hfill⟩
    have hover : ∀ path, s.objectAt projectId path = s'.objectAt projectId path := congrFun hover
    have hfill : ∀ k : RowKey, (k.IsRow ∨ ∃ path row, s.objectAt projectId path = some row ∧
        row.Names k) → s.columnAt projectId k = s'.columnAt projectId k := hfill
    refine ⟨?_, ?_, ?_⟩
    · refine (List.perm_ext_iff_of_nodup hs.nodup_objectRows hs'.nodup_objectRows).mpr ?_
      rintro ⟨row, content⟩
      rw [hs.mem_objectRows, hs'.mem_objectRows, ← hover]
      refine and_congr_right fun hrow => ?_
      have hcontent : s.findContent row.contentHash = s'.findContent row.contentHash :=
        hfill (.content row.contentHash) (Or.inr ⟨_, row, hrow, rfl⟩)
      rw [hcontent]
    · refine (List.perm_ext_iff_of_nodup hs.nodup_instanceRows hs'.nodup_instanceRows).mpr ?_
      rintro ⟨path, symbol, offsetRange, layer, type⟩
      rw [hs.mem_instanceRows, hs'.mem_instanceRows,
        hfill (.inst symbol path offsetRange layer) (Or.inl trivial)]
    · refine (List.perm_ext_iff_of_nodup hs.nodup_refRows hs'.nodup_refRows).mpr ?_
      rintro ⟨path, toSymbol, fromOffsetRange, layer⟩
      rw [hs.mem_refRows, hs'.mem_refRows,
        hfill (.ref toSymbol path fromOffsetRange layer) (Or.inl trivial)]

/-! ### A chunk is a message -/

section Messages

variable {hashBytes : Bytes → Text} {projectId : ℤ} {uploads : List UploadProject} {s : Store}

/-- What a chunk writes depends on the projects and symbols only. -/
theorem chunkWrites_congr {s' : Store} (hprojects : s'.projects = s.projects)
    (hsymbols : s'.symbols = s.symbols) (upload : UploadProject) :
    chunkWrites hashBytes s' projectId upload = chunkWrites hashBytes s projectId upload := by
  have hroot : s'.rootLayerOf projectId = s.rootLayerOf projectId := by
    rw [rootLayerOf, findProject, hprojects, rootLayerOf, findProject]
  have haccepts : s'.acceptsRows = s.acceptsRows := by
    funext rows
    simp only [acceptsRows, acceptsRange, hsymbols]
  rw [chunkWrites, hroot, haccepts, chunkWrites]

theorem Constrained.recordObjectChunk (hs : s.Constrained) (projectId seq : ℤ) :
    (s.recordObjectChunk projectId seq).Constrained :=
  hs.of_eq rfl rfl rfl rfl rfl

theorem rootLayerOf_eq_ok {rootLayerId : ℤ} (h : s.rootLayerOf projectId = .ok rootLayerId) :
    (s.findProject projectId).isSome := by
  unfold rootLayerOf at h
  split at h
  · cases h
  · next p hp =>
    rw [hp]
    rfl

theorem chunkWrites_eq_some {upload : UploadProject}
    {w : Deliveries.Writes Text NewObject RowKey RowKey.Column} :
    chunkWrites hashBytes s projectId upload = some w ↔
      upload.symbols.isEmpty = true ∧ ∃ rootLayerId rows,
        s.rootLayerOf projectId = .ok rootLayerId ∧
        chunkRows hashBytes projectId rootLayerId upload = .ok rows ∧
        s.acceptsRows rows = true ∧ rows.writes = w := by
  unfold chunkWrites
  cases hsymbols : upload.symbols.isEmpty with
  | false => simp
  | true =>
    cases hroot : s.rootLayerOf projectId with
    | error e => simp
    | ok rootLayerId =>
      cases hrows : chunkRows hashBytes projectId rootLayerId upload with
      | error e => simp [hrows]
      | ok rows =>
        by_cases haccepts : s.acceptsRows rows = true
        · simp [hrows, haccepts]
        · simp [hrows, haccepts]

/-- A chunk that can be taken is committed. -/
theorem deliverChunk_of_ready (hs : s.Constrained) {seq : Fin uploads.length}
    {w : Deliveries.Writes Text NewObject RowKey RowKey.Column}
    (hw : chunkMessages hashBytes s projectId uploads seq = some w)
    (hnew : ⟨projectId, (seq : ℤ)⟩ ∉ s.objectChunks)
    (hneeds : ∀ k ∈ w.needs, (s.columnAt projectId k).isSome) :
    ∃ rows : ChunkRows, rows.writes = w ∧
      (s.recordObjectChunk projectId seq).doUploadObjects hashBytes projectId (uploads.get seq) =
        .ok (s.deliverChunk hashBytes projectId uploads seq) ∧
      ChunkEntered projectId (s.recordObjectChunk projectId seq) rows
        (s.deliverChunk hashBytes projectId uploads seq) := by
  obtain ⟨hsymbols, rootLayerId, rows, hroot, hrows, haccepts, rfl⟩ := chunkWrites_eq_some.mp hw
  obtain ⟨s', hs', hentered⟩ := exists_doUploadObjects (hs.recordObjectChunk projectId seq) hroot hrows
    haccepts hneeds
  have hproject := rootLayerOf_eq_ok hroot
  have hdeliver : s.deliverChunk hashBytes projectId uploads seq = s' := by
    unfold deliverChunk uploadObjectChunk
    rw [if_neg (by rw [hsymbols]; decide), if_neg (by simpa using hnew),
      if_neg (by simpa [Option.isSome_iff_ne_none] using hproject), hs']
    rfl
  rw [hdeliver]
  exact ⟨rows, rfl, hs', hentered⟩

/-- A chunk that is delivered without being taken changes nothing. -/
theorem deliverChunk_of_idle (hs : s.Constrained) {seq : Fin uploads.length}
    (hidle : ∀ w, chunkMessages hashBytes s projectId uploads seq = some w →
      (∀ k ∈ w.needs, (s.columnAt projectId k).isSome) → ⟨projectId, (seq : ℤ)⟩ ∈ s.objectChunks) :
    s.deliverChunk hashBytes projectId uploads seq = s := by
  unfold deliverChunk
  cases hupload : s.uploadObjectChunk hashBytes projectId seq (uploads.get seq) with
  | error e => rfl
  | ok c =>
    obtain ⟨-, ⟨-, hstore⟩ | ⟨hnew, -, hstore⟩⟩ := uploadObjectChunk_cases hupload
    · exact hstore
    · obtain ⟨rootLayerId, rows, hroot, hrows, haccepts, hneeds⟩ :=
        accepts_of_doUploadObjects (hs.recordObjectChunk projectId seq) hstore
      have hsymbols : (uploads.get seq).symbols.isEmpty = true := by
        by_contra hne
        unfold uploadObjectChunk at hupload
        rw [if_pos (by simpa using hne)] at hupload
        cases hupload
      have hw : chunkMessages hashBytes s projectId uploads seq = some rows.writes :=
        chunkWrites_eq_some.mpr ⟨hsymbols, rootLayerId, rows, hroot, hrows, haccepts, rfl⟩
      exact absurd (hidle rows.writes hw hneeds) hnew

/-- **Delivering a chunk takes a message**, and leaves the projects, the symbols and the
constraints as they are. -/
theorem catalogue_deliverChunk (hashBytes : Bytes → Text) (projectId : ℤ) (hs : s.Constrained)
    (seq : Fin uploads.length) :
    (s.deliverChunk hashBytes projectId uploads seq).Constrained ∧
      (s.deliverChunk hashBytes projectId uploads seq).projects = s.projects ∧
      (s.deliverChunk hashBytes projectId uploads seq).symbols = s.symbols ∧
      (s.deliverChunk hashBytes projectId uploads seq).catalogue projectId uploads.length =
        (s.catalogue projectId uploads.length).deliver
          (chunkMessages hashBytes s projectId uploads) seq := by
  rcases Deliveries.deliver_cases (chunkMessages hashBytes s projectId uploads)
    (s.catalogue projectId uploads.length) seq with ⟨w, hw, hnew, hneeds, htake⟩ | ⟨hsame, hidle⟩
  · obtain ⟨rows, rfl, hcommit, hentered⟩ := deliverChunk_of_ready hs hw hnew hneeds
    have huploads := sameUploads_doUploadObjects hcommit
    refine ⟨hentered.constrained, huploads.projects, hentered.symbols, ?_⟩
    rw [htake]
    have htaken : (s.deliverChunk hashBytes projectId uploads seq).objectChunks =
        s.objectChunks ++ [⟨projectId, seq⟩] := huploads.objectChunks
    unfold catalogue Deliveries.Receiver.take
    congr 1
    · funext path
      exact hentered.latest path
    · funext k
      rw [hentered.fill k]
      cases k <;> rfl
    · ext other
      show ⟨projectId, (other : ℤ)⟩ ∈ (s.deliverChunk hashBytes projectId uploads seq).objectChunks ↔
        other = seq ∨ ⟨projectId, (other : ℤ)⟩ ∈ s.objectChunks
      rw [htaken, List.mem_append, List.mem_singleton, ProjectChunk.mk.injEq, or_comm]
      refine or_congr_left ⟨fun h => Fin.ext (by exact_mod_cast h.2), ?_⟩
      rintro rfl
      exact ⟨rfl, rfl⟩
  · have hidle := deliverChunk_of_idle hs hidle
    rw [hidle, hsame]
    exact ⟨hs, rfl, rfl, rfl⟩

/-- Delivering chunks runs the messages. -/
theorem catalogue_deliverChunks (hs : s.Constrained) (d : List (Fin uploads.length)) :
    (s.deliverChunks hashBytes projectId uploads d).Constrained ∧
      (s.deliverChunks hashBytes projectId uploads d).catalogue projectId uploads.length =
        Deliveries.run (chunkMessages hashBytes s projectId uploads)
          (s.catalogue projectId uploads.length) d := by
  induction d generalizing s with
  | nil => exact ⟨hs, rfl⟩
  | cons seq d ih =>
    obtain ⟨hs', hprojects, hsymbols, hcatalogue⟩ :=
      catalogue_deliverChunk hashBytes projectId hs seq
    have hmessages : chunkMessages hashBytes (s.deliverChunk hashBytes projectId uploads seq) projectId
        uploads = chunkMessages hashBytes s projectId uploads := by
      funext other
      exact chunkWrites_congr hprojects hsymbols _
    obtain ⟨hs'', hrun⟩ := ih hs'
    refine ⟨hs'', ?_⟩
    rw [Deliveries.run_cons, ← hcatalogue, ← hmessages]
    exact hrun

end Messages

end Store

/-! ### Every store is constrained -/

namespace Store

/-- An object chunk enters its rows in a constrained store. -/
theorem Constrained.exists_entered {hashBytes : Bytes → Text} {s s' : Store} {projectId : ℤ}
    {upload : UploadProject} (hs : s.Constrained)
    (h : s.doUploadObjects hashBytes projectId upload = .ok s') :
    ∃ rows, ChunkEntered projectId s rows s' := by
  obtain ⟨rootLayerId, rows, hroot, hrows, haccepts, hneeds⟩ := accepts_of_doUploadObjects hs h
  obtain ⟨entered, hentered, hrowsEntered⟩ := exists_doUploadObjects hs hroot hrows haccepts hneeds
  rw [h] at hentered
  obtain rfl := Except.ok.inj hentered
  exact ⟨rows, hrowsEntered⟩

/-- **A request keeps the constraints.** -/
theorem Constrained.handle {hashBytes : Bytes → Text} {s : Store} {req : Request}
    {c : Committed Response} (hs : s.Constrained) (h : s.handle hashBytes req = .ok c) :
    c.store.Constrained := by
  cases handle_cases h with
  | resumed | symbolChunkAgain | objectChunkAgain | notFinalized | notMarked => exact hs
  | @created _ _ _ _ s' _ _ hcleared hcreated =>
    have hs' : s'.Constrained := by
      rcases hcleared with ⟨rfl, -⟩ | ⟨z, -, -, -, rfl⟩
      · exact hs
      · exact ((hs.deleteProjectRow z.id).deleteRootLayer z.rootLayerId).purgeEphCache
    obtain ⟨_, _, _, _, hframe⟩ := insertProject_frame hcreated
    rw [hframe]
    exact hs'.of_eq rfl rfl rfl rfl rfl
  | @symbolChunk projectId seq _ _ hnew hproject hinsert =>
    have hrecord : (s.recordSymbolChunk projectId seq).Constrained :=
      hs.of_eq rfl rfl rfl rfl rfl
    exact hrecord.insertSymbols hinsert
  | @objectChunk projectId seq _ _ hnew hproject hinsert =>
    obtain ⟨rows, hentered⟩ := (hs.recordObjectChunk projectId seq).exists_entered hinsert
    exact hentered.constrained
  | @contents _ rows => exact hs.insertContents rows
  | finalized => exact hs.of_eq rfl rfl rfl rfl rfl
  | marked => exact hs.of_eq rfl rfl rfl rfl rfl
  | @deleted projectId => exact hs.deleteProject projectId

theorem constrained_initial (canaryRootHash : Bytes) : (initial canaryRootHash).Constrained := by
  constructor <;> simp [initial]

end Store

/-- **In every run of requests the store is constrained.** -/
theorem constrained_of_run {hashBytes : Bytes → Text} {guard : UploadState → Request → Bool}
    {canaryRootHash : Bytes} {st : UploadState}
    (hrun : Relation.ReflTransGen (UploadStep hashBytes guard) (.initial canaryRootHash) st) :
    st.store.Constrained := by
  exact storeInvariant_of_run (fun h hhandle => h.handle hhandle)
    (Store.constrained_initial canaryRootHash) hrun

/-! ### When the order does not matter -/

/-- **When the order of delivery does not matter**: object chunks delivered in any order, each at
least once and any number of times, leave the rows that they leave when each is delivered once
and in order, iff they are settled. -/
theorem sameRows_iff_chunksSettled (hashBytes : Bytes → Text) {s : Store} (hs : s.Constrained)
    (projectId : ℤ) (uploads : List UploadProject) :
    (∀ deliveries : List (Fin uploads.length), (∀ seq, seq ∈ deliveries) →
        Store.SameRows projectId (s.deliverChunks hashBytes projectId uploads deliveries)
          (s.deliverChunks hashBytes projectId uploads (List.finRange uploads.length))) ↔
      ChunksSettled hashBytes s projectId uploads := by
  have hrun : ∀ d : List (Fin uploads.length),
      (s.deliverChunks hashBytes projectId uploads d).Constrained ∧ _ := fun d =>
    Store.catalogue_deliverChunks hs d
  rw [ChunksSettled, ← Deliveries.same_iff_settled (List.mem_finRange (n := uploads.length))]
  refine forall₂_congr fun d _ => ?_
  rw [Store.sameRows_iff uploads.length (hrun d).1 (hrun _).1, (hrun d).2, (hrun _).2]

/-- Where the contents that the chunks name are there, as they are when the client has sent
them first, the chunks are settled iff any two of them agree. -/
theorem chunksSettled_iff_of_contents {hashBytes : Bytes → Text} {s : Store} {projectId : ℤ}
    {uploads : List UploadProject}
    (hcontents : ∀ seq w, chunkMessages hashBytes s projectId uploads seq = some w →
      ∀ k ∈ w.needs, (s.columnAt projectId k).isSome) :
    ChunksSettled hashBytes s projectId uploads ↔
      (∀ {i j path a b},
        Deliveries.Prompt (chunkMessages hashBytes s projectId uploads) (s.catalogue projectId _) i →
        Deliveries.Prompt (chunkMessages hashBytes s projectId uploads) (s.catalogue projectId _) j →
        Deliveries.Puts (chunkMessages hashBytes s projectId uploads) i path a →
        Deliveries.Puts (chunkMessages hashBytes s projectId uploads) j path b → a = b) ∧
      ∀ {k}, Deliveries.Awaited (chunkMessages hashBytes s projectId uploads)
          (s.catalogue projectId _) RowKey.IsRow NewObject.Names k → ∀ {i j a b},
        Deliveries.Prompt (chunkMessages hashBytes s projectId uploads) (s.catalogue projectId _) i →
        Deliveries.Prompt (chunkMessages hashBytes s projectId uploads) (s.catalogue projectId _) j →
        Deliveries.Gives (chunkMessages hashBytes s projectId uploads) i k a →
        Deliveries.Gives (chunkMessages hashBytes s projectId uploads) j k b → a = b := by
  refine Deliveries.settled_iff_of_prompt fun seq hseq => ?_
  obtain ⟨hw, hfresh, -, -, -⟩ := hseq
  exact Deliveries.prompt_iff.mpr ⟨_, hw, hfresh, hcontents seq _ hw⟩

/-! ### Chunks with paths of their own -/

section Paths

variable {hashBytes : Bytes → Text} {s : Store} {projectId : ℤ}

/-- The row of an object is at its path, with the digest of the content it brings along. -/
theorem exists_of_mem_buildObjectsFrom {rootLayerId : ℤ} {seen : List ℤ}
    {objects : List UploadObject} {inserts : List ObjectInsert}
    (h : buildObjectsFrom hashBytes projectId rootLayerId seen objects = .ok inserts) :
    ∀ e ∈ inserts, (∃ object ∈ objects, object.path = e.row.filesystemPath) ∧
      ∀ c, e.content = some c → e.row.contentHash = hashBytes c := by
  intro e he
  obtain ⟨object, hobject, hentry⟩ := insertOf_of_mem h e he
  refine ⟨⟨object, hobject, hentry.path.symm⟩, fun c hc => ?_⟩
  rcases hentry.content with ⟨content, hcontent, hdigest⟩ | ⟨hnone, -⟩
  · rw [hdigest, Option.some.inj (hcontent.symm.trans hc)]
  · cases hnone.symm.trans hc

/-- The rows that a chunk writes are at the paths of its objects, and a content is that of its
hash. -/
theorem exists_of_chunkWrites {upload : UploadProject}
    {w : Deliveries.Writes Text NewObject RowKey RowKey.Column}
    (hw : chunkWrites hashBytes s projectId upload = some w) :
    (∀ path row, w.latest path = some row → ∃ object ∈ upload.objects, object.path = path) ∧
      (∀ contentHash c, w.fill (.content contentHash) = some c → contentHash = hashBytes c) ∧
      (∀ symbol path offsetRange layer type, w.fill (.inst symbol path offsetRange layer) = some type →
        ∃ object ∈ upload.objects, object.path = path) ∧
      ∀ toSymbol path offsetRange layer u, w.fill (.ref toSymbol path offsetRange layer) = some u →
        ∃ object ∈ upload.objects, object.path = path := by
  obtain ⟨-, rootLayerId, rows, -, hrows, -, rfl⟩ := Store.chunkWrites_eq_some.mp hw
  obtain ⟨inserts, hbuild, hrows⟩ := Fallible.bind_eq_ok.mp hrows
  obtain ⟨instances, hinstances, hrows⟩ := Fallible.bind_eq_ok.mp hrows
  obtain ⟨refs, hrefs, hrows⟩ := Fallible.bind_eq_ok.mp hrows
  obtain rfl := Except.ok.inj hrows
  have hentries := exists_of_mem_buildObjectsFrom hbuild
  refine ⟨fun path row h => ?_, fun contentHash c h => ?_, ?_, ?_⟩
  · obtain ⟨e, he, -⟩ := Option.map_eq_some_iff.mp h
    obtain ⟨⟨object, hobject, hpath⟩, -⟩ :=
      hentries e (List.mem_reverse.mp (List.mem_of_find?_eq_some he))
    exact ⟨object, hobject, hpath.trans (by simpa using List.find?_some he)⟩
  · obtain ⟨e, he, hc⟩ := List.exists_of_findSome?_eq_some h
    split at hc
    · next hhash => rw [← hhash, (hentries e he).2 c hc]
    · cases hc
  · intro symbol path offsetRange layer type h
    obtain ⟨x, hx, hkey⟩ := List.exists_of_findSome?_eq_some h
    split at hkey
    · next hmatch =>
      obtain ⟨object, hobject, hpath⟩ := exists_of_mem_placed hinstances x hx
      exact ⟨object, hobject, hpath.trans hmatch.2.1⟩
    · cases hkey
  · intro toSymbol path offsetRange layer u h
    obtain ⟨x, hx, hkey⟩ := List.exists_of_findSome?_eq_some h
    split at hkey
    · next hmatch =>
      obtain ⟨object, hobject, hpath⟩ := exists_of_mem_placed hrefs x hx
      exact ⟨object, hobject, hpath.trans hmatch.2.1⟩
    · cases hkey

/-- **Chunks whose objects are at paths of their own are settled**, where the contents that they
name are there and no two contents have one digest. -/
theorem chunksSettled_of_disjointPaths {uploads : List UploadProject}
    (hdigest : Function.Injective hashBytes)
    (hpaths : ∀ i j, i ≠ j → ∀ object ∈ (uploads.get i).objects,
      ∀ object' ∈ (uploads.get j).objects, object.path ≠ object'.path)
    (hcontents : ∀ seq w, chunkMessages hashBytes s projectId uploads seq = some w →
      ∀ k ∈ w.needs, (s.columnAt projectId k).isSome) :
    ChunksSettled hashBytes s projectId uploads := by
  -- Two chunks that both write at a path are one chunk.
  have hsame : ∀ {i j path}, (∃ object ∈ (uploads.get i).objects, object.path = path) →
      (∃ object ∈ (uploads.get j).objects, object.path = path) → i = j := by
    rintro i j path ⟨object, hobject, rfl⟩ ⟨object', hobject', hpath⟩
    by_contra hne
    exact hpaths i j hne object hobject object' hobject' hpath.symm
  refine (chunksSettled_iff_of_contents hcontents).mpr ⟨?_, ?_⟩
  · rintro i j path a b - - ⟨w, hw, ha⟩ ⟨v, hv, hb⟩
    obtain rfl := hsame ((exists_of_chunkWrites hw).1 path a ha) ((exists_of_chunkWrites hv).1 path b hb)
    rw [hw] at hv
    obtain rfl := Option.some.inj hv
    rw [ha] at hb
    exact Option.some.inj hb
  · rintro k - i j a b - - ⟨w, hw, ha⟩ ⟨v, hv, hb⟩
    obtain ⟨-, hcontent, hinst, href⟩ := exists_of_chunkWrites hw
    obtain ⟨-, hcontent', hinst', href'⟩ := exists_of_chunkWrites hv
    have hone : i = j → a = b := by
      rintro rfl
      rw [hw] at hv
      obtain rfl := Option.some.inj hv
      rw [ha] at hb
      exact Option.some.inj hb
    cases k with
    | content contentHash =>
      exact hdigest ((hcontent contentHash a ha).symm.trans (hcontent' contentHash b hb))
    | inst symbol path offsetRange layer =>
      exact hone (hsame (hinst _ _ _ _ a ha) (hinst' _ _ _ _ b hb))
    | ref toSymbol path fromOffsetRange layer =>
      exact hone (hsame (href _ _ _ _ a ha) (href' _ _ _ _ b hb))

end Paths

/-! ### Two chunks with objects at one path -/

/-- The SHA-256 of the empty content. -/
def emptyDigest : Text := "e3b0c44298fc1c149afbf4c8996fb92427ae41e4649b934ca495991b7852b855".toList

/-- A store with one project, whose two object chunks are to come. -/
def freshStore : Store :=
  let s := Store.initial [1]
  { s with
    projects := s.projects ++ [⟨1, "p".toList, "/p".toList, .uploading, some 0, some 2, 3⟩]
    layers := s.layers ++ [⟨3, none, none, [2], .root, true, false⟩]
    nextProjectId := 2
    nextRootLayerId := 4 }

/-- An upload of one object. -/
def objectUpload (localId : ℤ) (filesystemPath filetype : Text) : UploadProject :=
  ⟨"p".toList, "/p".toList, [⟨localId, [], filesystemPath, filetype, [], [], [], []⟩], []⟩

/-- Two chunks with an empty file each, at one path that is written in two ways. -/
def samePath : List UploadProject :=
  [objectUpload 1 "/p/f.h".toList "c".toList, objectUpload 2 "/p/./f.h".toList "cpp".toList]

theorem constrained_freshStore : freshStore.Constrained := by
  constructor <;> simp [freshStore, Store.initial]

/-- The chunks at one path are not settled. -/
theorem not_chunksSettled_of_samePath :
    ¬ChunksSettled (fun _ => emptyDigest) freshStore 1 samePath := by
  intro hsettled
  have hsame := (sameRows_iff_chunksSettled (fun _ => emptyDigest) constrained_freshStore 1
    samePath).mpr hsettled (List.finRange _).reverse (by simp)
  revert hsame
  decide +kernel

/-- The last chunk to come decides on the type of the file. -/
theorem not_sameRows_of_samePath :
    ¬∀ deliveries : List (Fin samePath.length), (∀ seq, seq ∈ deliveries) →
      Store.SameRows 1 (freshStore.deliverChunks (fun _ => emptyDigest) 1 samePath deliveries)
        (freshStore.deliverChunks (fun _ => emptyDigest) 1 samePath
          (List.finRange samePath.length)) := by
  intro hall
  have hsame := hall (List.finRange _).reverse (by simp)
  revert hsame
  decide +kernel

end Askl
