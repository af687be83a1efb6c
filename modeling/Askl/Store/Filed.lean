import Askl.Store.LayerSigns
import Askl.Store.Replay
import Askl.Store.Topology

/-!
# Where objects are filed

An upload files the objects of a project on the project's root layer.  Projects have ids and
root layers of their own, and root layers identity hashes of their own, so that a root tells
its project and the objects of this.

## Main definitions

* `Store.Filed` — projects, roots and objects belong together.
* `Store.rootHash` — the identity hash of a root.

## Main results

* `Store.Filed.handle` — every request keeps them together.
* `filed_of_run` — **in every store that requests lead to, objects are on their roots.**
* `Store.Filed.layer_eq` — an object is on the root of its project.
* `Store.Filed.rootHash_inj` — roots have identity hashes of their own.
-/

namespace Askl

namespace Store

/-- Projects have ids and positive root layers of their own, layers have hashes of their
own, and an object is on the root layer of its project. -/
structure Filed (s : Store) : Prop where
  projectIds : (s.projects.map (·.id)).Nodup
  projectIds_lt : ∀ p ∈ s.projects, p.id < s.nextProjectId
  rootIds : (s.projects.map (·.rootLayerId)).Nodup
  rootIds_lt : ∀ p ∈ s.projects, p.rootLayerId < s.nextRootLayerId
  roots : s.PositiveRoots
  layerHashes : (s.layers.map (·.hash)).Nodup
  objects : ∀ o ∈ s.objects, ∃ p ∈ s.projects, p.id = o.row.projectId ∧
    p.rootLayerId = o.row.layer

/-- The identity hash of a root layer. -/
def rootHash (s : Store) (rootId : ℤ) : Bytes :=
  ((s.layers.find? (·.id == rootId)).map (·.hash)).getD []

variable {s s' : Store}

/-! ### Roots -/

/-- A root that is loaded is that of a project. -/
theorem exists_of_mem_loadRootLayers {r : RootLayer} (h : r ∈ s.loadRootLayers) :
    ∃ p ∈ s.projects, r = ⟨p.rootLayerId, p.id⟩ ∧ ∃ l ∈ s.layers, l.id = r.id := by
  rw [loadRootLayers, List.mem_insertionSort] at h
  obtain ⟨p, hp, rfl⟩ := List.mem_map.mp h
  obtain ⟨hp, hcond⟩ := List.mem_filter.mp hp
  obtain ⟨-, hlayer⟩ := of_decide_eq_true hcond
  obtain ⟨l, hl, hid⟩ := List.any_eq_true.mp hlayer
  exact ⟨p, hp, rfl, l, hl, beq_iff_eq.mp hid⟩

/-- Every root is loaded once. -/
theorem Filed.nodup_loadRootLayers (h : s.Filed) : s.loadRootLayers.Nodup := by
  rw [loadRootLayers, (List.perm_insertionSort _ _).nodup_iff]
  refine List.Nodup.map_on ?_ ((h.rootIds.of_map _).filter _)
  intro p hp q hq heq
  exact List.inj_on_of_nodup_map h.rootIds (List.mem_of_mem_filter hp) (List.mem_of_mem_filter hq)
    (congrArg RootLayer.id heq)

/-- A root is known by its id. -/
theorem Filed.root_inj (h : s.Filed) {r r' : RootLayer} (hr : r ∈ s.loadRootLayers)
    (hr' : r' ∈ s.loadRootLayers) (hid : r.id = r'.id) : r = r' := by
  obtain ⟨p, hp, rfl, -⟩ := exists_of_mem_loadRootLayers hr
  obtain ⟨p', hp', rfl, -⟩ := exists_of_mem_loadRootLayers hr'
  rw [List.inj_on_of_nodup_map h.rootIds hp hp' hid]

/-- Roots have identity hashes of their own. -/
theorem Filed.rootHash_inj (h : s.Filed) {r r' : RootLayer} (hr : r ∈ s.loadRootLayers)
    (hr' : r' ∈ s.loadRootLayers) (hhash : s.rootHash r.id = s.rootHash r'.id) : r = r' := by
  have hfind : ∀ {q : RootLayer}, q ∈ s.loadRootLayers →
      ∃ l ∈ s.layers, l.id = q.id ∧ s.rootHash q.id = l.hash := by
    intro q hq
    obtain ⟨-, -, -, l, hl, hid⟩ := exists_of_mem_loadRootLayers hq
    cases hsome : s.layers.find? (·.id == q.id) with
    | none =>
      have hne := List.find?_eq_none.mp hsome l hl
      exact absurd (beq_iff_eq.mpr hid) hne
    | some k =>
      exact ⟨k, List.mem_of_find?_eq_some hsome, by simpa using List.find?_some hsome,
        by rw [rootHash, hsome]; rfl⟩
  obtain ⟨l, hl, hid, hl'⟩ := hfind hr
  obtain ⟨k, hk, hkid, hk'⟩ := hfind hr'
  have hlk := List.inj_on_of_nodup_map h.layerHashes hl hk (by rw [← hl', ← hk', hhash])
  exact h.root_inj hr hr' (by rw [← hid, ← hkid, hlk])

/-- An object of a root's project is on the root. -/
theorem Filed.layer_eq (h : s.Filed) {r : RootLayer} (hr : r ∈ s.loadRootLayers)
    {o : ObjectRow} (ho : o ∈ s.objects) (hproject : o.row.projectId = r.projectId) :
    o.row.layer = r.id := by
  obtain ⟨p, hp, rfl, -⟩ := exists_of_mem_loadRootLayers hr
  obtain ⟨q, hq, hqid, hlayer⟩ := h.objects o ho
  obtain rfl := List.inj_on_of_nodup_map h.projectIds hq hp (hqid.trans hproject)
  exact hlayer.symm

/-- What is on a root is an object of its project. -/
theorem Filed.projectId_eq (h : s.Filed) {r : RootLayer} (hr : r ∈ s.loadRootLayers)
    {o : ObjectRow} (ho : o ∈ s.objects) (hlayer : o.row.layer = r.id) :
    o.row.projectId = r.projectId := by
  obtain ⟨p, hp, rfl, -⟩ := exists_of_mem_loadRootLayers hr
  obtain ⟨q, hq, hqid, hqlayer⟩ := h.objects o ho
  obtain rfl := List.inj_on_of_nodup_map h.rootIds hq hp (hqlayer.trans hlayer)
  exact hqid.symm

/-- No object is on an ephemeral layer. -/
theorem Filed.layer_pos (h : s.Filed) {o : ObjectRow} (ho : o ∈ s.objects) : 0 < o.row.layer := by
  obtain ⟨p, hp, -, hlayer⟩ := h.objects o ho
  rw [← hlayer]
  exact h.roots.projects p hp

/-! ### What an object chunk files -/

/-- An object that an upload has put on the root of the project, or one with the project and
the layer of an old one. -/
def FiledAs (s : Store) (projectId rootLayerId : ℤ) (o : ObjectRow) : Prop :=
  (∃ o' ∈ s.objects, o'.row.projectId = o.row.projectId ∧ o'.row.layer = o.row.layer) ∨
    o.row.projectId = projectId ∧ o.row.layer = rootLayerId

theorem filed_of_buildObjectsFrom {hashBytes : Bytes → Text} {projectId rootLayerId : ℤ}
    {objects : List UploadObject} {seen : List ℤ} {inserts : List ObjectInsert}
    (h : buildObjectsFrom hashBytes projectId rootLayerId seen objects = .ok inserts) :
    ∀ e ∈ inserts, e.row.projectId = projectId ∧ e.row.layer = rootLayerId := by
  intro e he
  obtain ⟨object, -, hentry⟩ := insertOf_of_mem h e he
  exact ⟨hentry.project, hentry.layer⟩

section Chunk

variable {projectId rootLayerId : ℤ} {x x' : Store}

theorem filedAs_upsertObject {m : ObjectMap} {e : ObjectInsert}
    (h : ∀ o ∈ x.objects, FiledAs s projectId rootLayerId o)
    (he : e.row.projectId = projectId ∧ e.row.layer = rootLayerId) :
    ∀ o ∈ (upsertObject (x, m) e).1.objects, FiledAs s projectId rootLayerId o := by
  intro o ho
  unfold upsertObject at ho
  split at ho
  · obtain ⟨old, hold, rfl⟩ := List.mem_map.mp ho
    split
    · exact Or.inr he
    · exact h old hold
  · rcases List.mem_append.mp ho with ho | ho
    · exact h o ho
    · obtain rfl := List.mem_singleton.mp ho
      exact Or.inr he

theorem filedAs_upsertObjects {c : Store × ObjectMap} {rows : List ObjectInsert}
    (h : ∀ o ∈ c.1.objects, FiledAs s projectId rootLayerId o)
    (hrows : ∀ e ∈ rows, e.row.projectId = projectId ∧ e.row.layer = rootLayerId) :
    ∀ o ∈ (rows.foldl upsertObject c).1.objects, FiledAs s projectId rootLayerId o := by
  induction rows generalizing c with
  | nil => exact h
  | cons e rows ih =>
    obtain ⟨he, hrows⟩ := List.forall_mem_cons.mp hrows
    exact ih (filedAs_upsertObject h he) hrows

theorem objects_insertContents (x : Store) (rows : List NewContentStoreRow) :
    (rows.foldl insertContent x).objects = x.objects := by
  obtain ⟨contentStore, h⟩ := insertContents_eq x rows
  rw [h]

theorem filedAs_insertObjectRows {c c' : Store × ObjectMap} {rows : List ObjectInsert}
    (h : ∀ o ∈ c.1.objects, FiledAs s projectId rootLayerId o)
    (hrows : ∀ e ∈ rows, e.row.projectId = projectId ∧ e.row.layer = rootLayerId)
    (hinsert : insertObjectRows c rows = .ok c') :
    ∀ o ∈ c'.1.objects, FiledAs s projectId rootLayerId o := by
  unfold insertObjectRows at hinsert
  split at hinsert
  · obtain rfl := Except.ok.inj hinsert
    simp only [objects_insertContents]
    exact filedAs_upsertObjects h hrows
  · cases hinsert

theorem objects_insertSymbols {projectId : ℤ} {symbols : List UploadSymbol}
    (h : x.insertSymbols projectId symbols = .ok x') : x'.objects = x.objects := by
  obtain ⟨rows, rfl⟩ := insertSymbols_frame h
  rfl

/-- An object chunk files its objects on the root of the project. -/
theorem filedAs_doUploadObjects {hashBytes : Bytes → Text} {upload : UploadProject}
    (h : s.doUploadObjects hashBytes projectId upload = .ok s') :
    ∃ p, s.findProject projectId = some p ∧
      ∀ o ∈ s'.objects, FiledAs s projectId p.rootLayerId o := by
  obtain ⟨root, inserts, inserted, hroot, hinserts, -, hinserted, _, _, _, _, rfl⟩ :=
    doUploadObjects_stages h
  have hrows := filed_of_buildObjectsFrom hinserts
  have hobjects : ∀ o ∈ inserted.1.objects, FiledAs s projectId root o := by
    refine Fallible.invariant_of_foldlM
      (I := fun c : Store × ObjectMap => ∀ o ∈ c.1.objects, FiledAs s projectId root o)
      (fun statement hstatement c c' hc hc' => ?_) hinserted fun o ho => Or.inl ⟨o, ho, rfl, rfl⟩
    obtain ⟨k, -, rfl⟩ := List.mem_map.mp hstatement
    refine filedAs_insertObjectRows hc (fun e he => hrows e ?_) hc'
    exact List.mem_of_mem_drop (List.mem_of_mem_take he)
  unfold rootLayerOf at hroot
  split at hroot
  · cases hroot
  · next p hp =>
    obtain rfl := Except.ok.inj hroot
    exact ⟨p, hp, hobjects⟩

end Chunk

/-! ### Requests -/

namespace Filed

/-- The same projects and layers, and objects that are filed as before. -/
theorem of_sameUploads (h : s.Filed) (hsame : SameUploads s s')
    (hnext : s'.nextRootLayerId = s.nextRootLayerId)
    (hobjects : ∀ o ∈ s'.objects, ∃ p ∈ s.projects, p.id = o.row.projectId ∧
      p.rootLayerId = o.row.layer) : s'.Filed where
  projectIds := hsame.projects ▸ h.projectIds
  projectIds_lt := by
    rw [hsame.projects, hsame.nextProjectId]
    exact h.projectIds_lt
  rootIds := hsame.projects ▸ h.rootIds
  rootIds_lt := by
    rw [hsame.projects, hnext]
    exact h.rootIds_lt
  roots := h.roots.of_sameUploads hsame hnext
  layerHashes := hsame.layers ▸ h.layerHashes
  objects := by
    rw [hsame.projects]
    exact hobjects

/-- Fewer projects, and with a project its objects are gone. -/
theorem filter (h : s.Filed) (keep : ProjectRow → Bool)
    (hprojects : s'.projects = s.projects.filter keep)
    (hnextProject : s'.nextProjectId = s.nextProjectId)
    (hnextRoot : s'.nextRootLayerId = s.nextRootLayerId)
    (hlayers : s'.layers.Sublist s.layers)
    (hobjects : ∀ o ∈ s'.objects, o ∈ s.objects ∧
      ∀ p ∈ s.projects, p.id = o.row.projectId → keep p = true) : s'.Filed where
  projectIds := by
    rw [hprojects]
    exact h.projectIds.sublist (List.filter_sublist.map _)
  projectIds_lt p hp := by
    rw [hnextProject]
    rw [hprojects] at hp
    exact h.projectIds_lt p (List.mem_of_mem_filter hp)
  rootIds := by
    rw [hprojects]
    exact h.rootIds.sublist (List.filter_sublist.map _)
  rootIds_lt p hp := by
    rw [hnextRoot]
    rw [hprojects] at hp
    exact h.rootIds_lt p (List.mem_of_mem_filter hp)
  roots := h.roots.mono (hprojects ▸ List.filter_sublist.subset) hnextRoot
  layerHashes := h.layerHashes.sublist (hlayers.map _)
  objects o ho := by
    obtain ⟨ho, hkeep⟩ := hobjects o ho
    obtain ⟨p, hp, hid, hroot⟩ := h.objects o ho
    refine ⟨p, ?_, hid, hroot⟩
    rw [hprojects]
    exact List.mem_filter.mpr ⟨hp, hkeep p hp hid⟩

theorem setStatus (h : s.Filed) (projectId : ℤ) (status : UploadStatus) :
    (s.setStatus projectId status).Filed := by
  have hsame : ∀ p : ProjectRow, (if p.id = projectId then { p with uploadStatus := status }
      else p).id = p.id ∧ (if p.id = projectId then { p with uploadStatus := status }
        else p).rootLayerId = p.rootLayerId := by
    intro p
    split <;> exact ⟨rfl, rfl⟩
  have hids : (s.setStatus projectId status).projects.map (·.id) = s.projects.map (·.id) := by
    rw [Store.setStatus, List.map_map]
    exact List.map_congr_left fun p _ => (hsame p).1
  have hroots : (s.setStatus projectId status).projects.map (·.rootLayerId) =
      s.projects.map (·.rootLayerId) := by
    rw [Store.setStatus, List.map_map]
    exact List.map_congr_left fun p _ => (hsame p).2
  refine ⟨hids ▸ h.projectIds, ?_, hroots ▸ h.rootIds, ?_, h.roots.setStatus projectId status,
    h.layerHashes, ?_⟩
  · intro p hp
    obtain ⟨q, hq, rfl⟩ := List.mem_map.mp hp
    rw [(hsame q).1]
    exact h.projectIds_lt q hq
  · intro p hp
    obtain ⟨q, hq, rfl⟩ := List.mem_map.mp hp
    rw [(hsame q).2]
    exact h.rootIds_lt q hq
  · intro o ho
    obtain ⟨p, hp, hid, hroot⟩ := h.objects o ho
    exact ⟨_, List.mem_map_of_mem hp, (hsame p).1.trans hid, (hsame p).2.trans hroot⟩

/-- A new project draws a new id and a new root, which has a new hash. -/
theorem insertProject (h : s.Filed) {projectName rootPath : Text}
    {symbolTotal objectTotal : Option ℤ} {rootHash : Bytes} {created : ℤ × Store}
    (hc : s.insertProject projectName rootPath symbolTotal objectTotal rootHash = .ok created) :
    created.2.Filed := by
  have hroots := h.roots.insertProject hc
  unfold Store.insertProject at hc
  split at hc
  · cases hc
  next hhash =>
  obtain rfl := Except.ok.inj hc
  have hnodup : ∀ {key : ProjectRow → ℤ} {p : ProjectRow}, (s.projects.map key).Nodup →
      (∀ q ∈ s.projects, key q < key p) → ((s.projects ++ [p]).map key).Nodup := by
    intro key p hnd hlt
    rw [List.map_append, List.nodup_append]
    refine ⟨hnd, List.nodup_singleton _, ?_⟩
    intro a ha b hb
    obtain ⟨q, hq, rfl⟩ := List.mem_map.mp ha
    obtain rfl := List.mem_singleton.mp hb
    exact (hlt q hq).ne
  refine ⟨hnodup h.projectIds h.projectIds_lt, ?_, hnodup h.rootIds h.rootIds_lt, ?_, hroots,
    ?_, ?_⟩
  · intro p hp
    rcases List.mem_append.mp hp with hp | hp
    · have := h.projectIds_lt p hp
      show p.id < s.nextProjectId + 1
      omega
    · obtain rfl := List.mem_singleton.mp hp
      show s.nextProjectId < s.nextProjectId + 1
      omega
  · intro p hp
    rcases List.mem_append.mp hp with hp | hp
    · have := h.rootIds_lt p hp
      show p.rootLayerId < s.nextRootLayerId + 1
      omega
    · obtain rfl := List.mem_singleton.mp hp
      show s.nextRootLayerId < s.nextRootLayerId + 1
      omega
  · show ((s.layers ++ [_] : List LayerRow).map (·.hash)).Nodup
    rw [List.map_append, List.nodup_append]
    refine ⟨h.layerHashes, List.nodup_singleton _, ?_⟩
    intro a ha b hb
    obtain ⟨l, hl, rfl⟩ := List.mem_map.mp ha
    obtain rfl := List.mem_singleton.mp hb
    intro heq
    exact hhash (List.any_eq_true.mpr ⟨l, hl, beq_iff_eq.mpr heq⟩)
  · intro o ho
    obtain ⟨p, hp, hfiled⟩ := h.objects o ho
    exact ⟨p, List.mem_append_left _ hp, hfiled⟩

/-- A project that is cleared away takes its objects with it. -/
theorem cleared (h : s.Filed) {purged : Bool} (hc : Cleared s s' purged) : s'.Filed := by
  rcases hc with ⟨rfl, -⟩ | ⟨z, -, -, -, rfl⟩
  · exact h
  · refine h.filter (fun p => p.id != z.id) rfl rfl rfl
      (List.filter_sublist.trans List.filter_sublist) fun o ho => ?_
    have ho := List.mem_of_mem_filter ho
    obtain ⟨ho, hproject⟩ := List.mem_filter.mp ho
    refine ⟨ho, fun p _ hid => ?_⟩
    rw [hid]
    exact hproject

theorem deleteProject (h : s.Filed) (projectId : ℤ) : (s.deleteProject projectId).store.Filed := by
  have hobjects : ∀ o ∈ ((((s.deleteSymbolRange projectId).keepSymbols
      (·.projectId != projectId)).keepObjects (·.row.projectId != projectId)).deleteProjectRow
        projectId).objects, o ∈ s.objects ∧
          ∀ p ∈ s.projects, p.id = o.row.projectId → (p.id != projectId) = true := by
    intro o ho
    obtain ⟨ho, hproject⟩ := List.mem_filter.mp ho
    refine ⟨List.mem_of_mem_filter ho, fun p _ hid => ?_⟩
    rw [hid]
    exact hproject
  unfold Store.deleteProject
  split
  · exact h.filter (fun p => p.id != projectId) rfl rfl rfl List.filter_sublist hobjects
  · exact h.filter (fun p => p.id != projectId) rfl rfl rfl
      (List.filter_sublist.trans List.filter_sublist)
      fun o ho => hobjects o (List.mem_of_mem_filter ho)

/-- **Every request keeps projects, roots and objects together.** -/
theorem handle {hashBytes : Bytes → Text} (h : s.Filed) {req : Request} {c : Committed Response}
    (hhandle : s.handle hashBytes req = .ok c) : c.store.Filed := by
  cases handle_cases hhandle with
  | resumed | symbolChunkAgain | objectChunkAgain | notFinalized | notMarked => exact h
  | created hcleared hcreated => exact (h.cleared hcleared).insertProject hcreated
  | @symbolChunk projectId seq _ _ hnew hproject hinsert =>
    have hrecord : (s.recordSymbolChunk projectId seq).Filed :=
      ⟨h.projectIds, h.projectIds_lt, h.rootIds, h.rootIds_lt, ⟨h.roots.projects, h.roots.next⟩,
        h.layerHashes, h.objects⟩
    refine hrecord.of_sameUploads (sameUploads_insertSymbols hinsert)
      (nextRootLayerId_insertSymbols hinsert) ?_
    rw [objects_insertSymbols hinsert]
    exact hrecord.objects
  | @objectChunk projectId seq _ _ hnew hproject hinsert =>
    have hrecord : (s.recordObjectChunk projectId seq).Filed :=
      ⟨h.projectIds, h.projectIds_lt, h.rootIds, h.rootIds_lt, ⟨h.roots.projects, h.roots.next⟩,
        h.layerHashes, h.objects⟩
    refine hrecord.of_sameUploads (sameUploads_doUploadObjects hinsert)
      (nextRootLayerId_doUploadObjects hinsert) fun o ho => ?_
    obtain ⟨p, hp, hfiled⟩ := filedAs_doUploadObjects hinsert
    rcases hfiled o ho with ⟨o', ho', hproject, hlayer⟩ | ⟨hproject, hlayer⟩
    · rw [← hproject, ← hlayer]
      exact hrecord.objects o' ho'
    · obtain ⟨hmem, hid⟩ := findProject_eq_some hp
      exact ⟨p, hmem, hid.trans hproject.symm, hlayer.symm⟩
  | @contents _ rows =>
    refine h.of_sameUploads (sameUploads_insertContents s rows) (nextRootLayerId_insertContents s rows)
      ?_
    rw [objects_insertContents]
    exact h.objects
  | @finalized projectId =>
    have hset := h.setStatus projectId .complete
    exact hset.filter (fun _ => true) (List.filter_true _).symm rfl rfl
      List.filter_sublist fun o ho => ⟨ho, fun _ _ _ => rfl⟩
  | marked => exact h.setStatus _ .deleting
  | deleted => exact h.deleteProject _

theorem initial {canaryRootHash : Bytes} (hcanary : canaryRootHash ≠ canaryHash) :
    (Store.initial canaryRootHash).Filed where
  projectIds := List.nodup_singleton _
  projectIds_lt p hp := by
    obtain rfl := List.mem_singleton.mp hp
    exact (by decide : (-999999 : ℤ) < 1)
  rootIds := List.nodup_singleton _
  rootIds_lt p hp := by
    obtain rfl := List.mem_singleton.mp hp
    exact (by decide : (2 : ℤ) < 3)
  roots := .initial canaryRootHash
  layerHashes := by
    show [canaryHash, canaryRootHash].Nodup
    simpa using hcanary.symm
  objects := List.forall_mem_nil _

end Filed

end Store

/-- **In every store that requests lead to, objects are on their roots.** -/
theorem filed_of_run {hashBytes : Bytes → Text} {guard : UploadState → Request → Bool}
    {canaryRootHash : Bytes} (hcanary : canaryRootHash ≠ canaryHash) {st : UploadState}
    (hrun : Relation.ReflTransGen (UploadStep hashBytes guard) (.initial canaryRootHash) st) :
    st.store.Filed := by
  exact storeInvariant_of_run (fun h hhandle => h.handle hhandle) (Store.Filed.initial hcanary) hrun

end Askl
