import Askl.Library.Runs
import Askl.Store.Upload
import Mathlib.Data.Int.Interval

/-!
# Complete uploads

Finalising a project counts its chunks and compares the counts with the totals the project
was created with.  The counts stand for the chunks themselves only as long as no chunk with
a number outside the total is committed, and the stored totals for the declared ones only as
long as no upload is resumed with another total of object chunks.

## Main definitions

* `UploadState`, `UploadState.serve` — the store with the totals declared for its projects,
  and what a request does to it.
* `ChunksExact` — the chunks of a project are the ones declared.
* `uploadSafe` — a request that commits no stray chunk and resumes no other upload.
* `UploadInv` — what a run of safe requests keeps.

## Main results

* `eq_range_of_card` — as many chunks as the total, all within it, are all of them.
* `UploadInv.serve` — a safe request keeps the invariant.
* `chunksExact_of_run` — **in a run of safe requests, only complete uploads are completed.**
* `not_chunksExact_of_stray` — a stray chunk, and a resumed upload with another total.
-/

namespace Askl

open Relation

/-! ### The server -/

/-- The store, the deletions that have marked their project, and the totals that the last
accepted `upload_index` of each project has declared. -/
structure UploadState where
  store : Store
  deleting : List ℤ
  declared : ℤ → Option (ℤ × ℤ)

namespace UploadState

/-- The server before any request. -/
def initial (canaryRootHash : Bytes) : UploadState := ⟨.initial canaryRootHash, [], fun _ => none⟩

/-- Whether a request can come: both totals are declared, and a deletion has marked its
project first. -/
def admits (st : UploadState) : Request → Bool
  | .uploadIndex _ symbolTotal objectTotal _ => symbolTotal.isSome && objectTotal.isSome
  | .deleteProject projectId => st.deleting.contains projectId
  | _ => true

/-- The totals declared after a request that was answered. -/
def declare (declared : ℤ → Option (ℤ × ℤ)) : Request → Response → ℤ → Option (ℤ × ℤ)
  | .uploadIndex _ (some symbolTotal) (some objectTotal) _, .project id _ =>
    Function.update declared id (some (symbolTotal, objectTotal))
  | _, _ => declared

/-- The deletions under way after a request that was answered. -/
def markOf (deleting : List ℤ) : Request → Response → List ℤ
  | .markDeleting projectId, .found true => projectId :: deleting
  | .deleteProject projectId, _ => deleting.erase projectId
  | _, _ => deleting

/-- One request; a transaction that fails is rolled back. -/
def serve (hashBytes : Bytes → Text) (st : UploadState) (req : Request) : UploadState :=
  match st.store.handle hashBytes req with
  | .error _ => st
  | .ok c => ⟨c.store, markOf st.deleting req c.value, declare st.declared req c.value⟩

end UploadState

/-- A request that can come, and meets a guard, is served. -/
def UploadStep (hashBytes : Bytes → Text) (guard : UploadState → Request → Bool)
    (st st' : UploadState) : Prop :=
  ∃ req, st.admits req = true ∧ guard st req = true ∧ st.serve hashBytes req = st'

/-! ### The property -/

/-- The project of an id is complete. -/
def IsComplete (s : Store) (projectId : ℤ) : Prop :=
  ∃ p ∈ s.projects, p.id = projectId ∧ p.uploadStatus = .complete

instance (s : Store) (projectId : ℤ) : Decidable (IsComplete s projectId) :=
  inferInstanceAs (Decidable (∃ p ∈ s.projects, p.id = projectId ∧ p.uploadStatus = .complete))

/-- The committed chunks of a project are exactly those of the declared totals. -/
def ChunksExact (st : UploadState) (projectId : ℤ) : Prop :=
  ∃ symbolTotal objectTotal, st.declared projectId = some (symbolTotal, objectTotal) ∧
    (∀ seq, ⟨projectId, seq⟩ ∈ st.store.symbolChunks ↔ 0 ≤ seq ∧ seq < symbolTotal) ∧
    ∀ seq, ⟨projectId, seq⟩ ∈ st.store.objectChunks ↔ 0 ≤ seq ∧ seq < objectTotal

/-- A request that completes a project meets all the chunks declared for it. -/
def CompletesExactly (hashBytes : Bytes → Text) (st : UploadState) : Prop :=
  ∀ req projectId, st.admits req = true → ¬IsComplete st.store projectId →
    IsComplete (st.serve hashBytes req).store projectId → ChunksExact st projectId

/-- Whether a number is within a total. -/
def inTotal (total : Option ℤ) (seq : ℤ) : Bool :=
  total.all fun n => decide (0 ≤ seq ∧ seq < n)

/-- Whether a request commits no stray chunk to a project that is being uploaded, and resumes
no upload with another total of object chunks. -/
def uploadSafe (st : UploadState) : Request → Bool
  | .uploadIndex upload symbolTotal objectTotal _ =>
    match st.store.projects.find? (·.projectName == trim upload.projectName) with
    | none => true
    | some p => p.uploadStatus != .uploading || p.symbolChunksTotal != symbolTotal ||
        p.objectChunksTotal == objectTotal
  | .symbolChunk projectId seq _ => match st.store.findProject projectId with
    | none => true
    | some p => p.uploadStatus != .uploading || inTotal p.symbolChunksTotal seq
  | .objectChunk projectId seq _ => match st.store.findProject projectId with
    | none => true
    | some p => p.uploadStatus != .uploading || inTotal p.objectChunksTotal seq
  | _ => true

/-! ### Counting -/

/-- Distinct numbers below a total, as many as the total, are all of them. -/
theorem eq_range_of_card {rows : List ProjectChunk} (hnd : rows.Nodup) {projectId total : ℤ}
    (hin : ∀ seq, ⟨projectId, seq⟩ ∈ rows → 0 ≤ seq ∧ seq < total)
    (hcard : (Store.committedChunks rows projectId : ℤ) = total) (seq : ℤ) :
    ⟨projectId, seq⟩ ∈ rows ↔ 0 ≤ seq ∧ seq < total := by
  refine ⟨hin seq, fun hseq => ?_⟩
  set seqs := (rows.filter (·.projectId == projectId)).map (·.seq) with hseqs
  have hmem : ∀ k, k ∈ seqs ↔ ⟨projectId, k⟩ ∈ rows := by
    intro k
    simp only [hseqs, List.mem_map, List.mem_filter, beq_iff_eq]
    constructor
    · rintro ⟨⟨_, _⟩, ⟨hc, rfl⟩, rfl⟩
      exact hc
    · exact fun hc => ⟨_, ⟨hc, rfl⟩, rfl⟩
  have hseqsnd : seqs.Nodup := by
    refine (hnd.filter _).map_on ?_
    rintro ⟨i, k⟩ hi ⟨j, l⟩ hj hkl
    obtain rfl : i = projectId := by simpa using (List.mem_filter.mp hi).2
    obtain rfl : j = i := by simpa using (List.mem_filter.mp hj).2
    exact congrArg _ hkl
  -- the numbers are a subset of the interval with as many elements
  have hsub : seqs.toFinset ⊆ Finset.Ico 0 total := by
    intro k hk
    exact Finset.mem_Ico.mpr (hin k ((hmem k).mp (List.mem_toFinset.mp hk)))
  have hlen : seqs.toFinset.card = (Finset.Ico (0 : ℤ) total).card := by
    rw [List.toFinset_card_of_nodup hseqsnd, Int.card_Ico, hseqs, List.length_map]
    simp only [Store.committedChunks] at hcard
    omega
  have hall := Finset.eq_of_subset_of_card_le hsub hlen.ge
  have hk : seq ∈ seqs.toFinset := hall ▸ Finset.mem_Ico.mpr hseq
  exact (hmem seq).mp (List.mem_toFinset.mp hk)

/-! ### The invariant -/

/-- What a run of safe requests keeps: keys are keys, ids are never drawn twice, and every
project being uploaded has the declared totals and no chunk outside them. -/
structure UploadInv (st : UploadState) : Prop where
  ids_nodup : (st.store.projects.map (·.id)).Nodup
  id_lt : ∀ p ∈ st.store.projects, p.id < st.store.nextProjectId
  symbolChunks_nodup : st.store.symbolChunks.Nodup
  objectChunks_nodup : st.store.objectChunks.Nodup
  symbolChunk_lt : ∀ c ∈ st.store.symbolChunks, c.projectId < st.store.nextProjectId
  objectChunk_lt : ∀ c ∈ st.store.objectChunks, c.projectId < st.store.nextProjectId
  uploading : ∀ p ∈ st.store.projects, p.uploadStatus = .uploading →
    ∃ symbolTotal objectTotal, p.symbolChunksTotal = some symbolTotal ∧
      p.objectChunksTotal = some objectTotal ∧
      st.declared p.id = some (symbolTotal, objectTotal) ∧
      (∀ seq, ⟨p.id, seq⟩ ∈ st.store.symbolChunks → 0 ≤ seq ∧ seq < symbolTotal) ∧
      ∀ seq, ⟨p.id, seq⟩ ∈ st.store.objectChunks → 0 ≤ seq ∧ seq < objectTotal

theorem uploadInv_initial (canaryRootHash : Bytes) :
    UploadInv (.initial canaryRootHash) := by
  constructor <;> simp [UploadState.initial, Store.initial]

namespace UploadInv

variable {hashBytes : Bytes → Text} {st : UploadState} (hinv : UploadInv st)

include hinv

/-- The row of a project is the one its id finds. -/
theorem eq_of_findProject {projectId : ℤ} {p q : ProjectRow}
    (hp : st.store.findProject projectId = some p) (hq : q ∈ st.store.projects)
    (hid : q.id = projectId) : q = p := by
  obtain ⟨hmem, hpid⟩ := Store.findProject_eq_some hp
  exact List.inj_on_of_nodup_map hinv.ids_nodup hq hmem (hid.trans hpid.symm)

/-- The invariant looks at the projects, their chunks and the declared totals only. -/
theorem congr {st' : UploadState} (h : Store.SameUploads st.store st'.store)
    (hdeclared : st'.declared = st.declared) : UploadInv st' where
  ids_nodup := h.projects ▸ hinv.ids_nodup
  id_lt := by
    rw [h.projects, h.nextProjectId]
    exact hinv.id_lt
  symbolChunks_nodup := h.symbolChunks ▸ hinv.symbolChunks_nodup
  objectChunks_nodup := h.objectChunks ▸ hinv.objectChunks_nodup
  symbolChunk_lt := by
    rw [h.symbolChunks, h.nextProjectId]
    exact hinv.symbolChunk_lt
  objectChunk_lt := by
    rw [h.objectChunks, h.nextProjectId]
    exact hinv.objectChunk_lt
  uploading := by
    rw [h.projects, h.symbolChunks, h.objectChunks, hdeclared]
    exact hinv.uploading

/-- A purge is out of the invariant's sight. -/
theorem purge : UploadInv ⟨st.store.purgeEphCache, st.deleting, st.declared⟩ :=
  ⟨hinv.ids_nodup, hinv.id_lt, hinv.symbolChunks_nodup, hinv.objectChunks_nodup,
    hinv.symbolChunk_lt, hinv.objectChunk_lt, hinv.uploading⟩

/-- A status other than uploading may be given to any project. -/
theorem setStatus (projectId : ℤ) {status : UploadStatus} (hstatus : status ≠ .uploading)
    (deleting : List ℤ) :
    UploadInv ⟨st.store.setStatus projectId status, deleting, st.declared⟩ where
  ids_nodup := by
    have hids : (st.store.setStatus projectId status).projects.map (·.id) =
        st.store.projects.map (·.id) := by
      simp only [Store.setStatus, List.map_map]
      refine List.map_congr_left fun p _ => ?_
      simp only [Function.comp_apply]
      split <;> rfl
    rw [hids]
    exact hinv.ids_nodup
  id_lt := by
    simp only [Store.setStatus, List.mem_map]
    rintro _ ⟨p, hp, rfl⟩
    have hlt := hinv.id_lt p hp
    split <;> exact hlt
  symbolChunks_nodup := hinv.symbolChunks_nodup
  objectChunks_nodup := hinv.objectChunks_nodup
  symbolChunk_lt := hinv.symbolChunk_lt
  objectChunk_lt := hinv.objectChunk_lt
  uploading := by
    simp only [Store.setStatus, List.mem_map]
    rintro _ ⟨p, hp, rfl⟩ hup
    split at hup
    · exact absurd hup hstatus
    · next hne =>
      rw [if_neg hne]
      exact hinv.uploading p hp hup

/-- Rows and chunks of a project may go away. -/
theorem delete (projectId : ℤ) {s : Store} (deleting : List ℤ)
    (hprojects : s.projects = st.store.projects.filter (·.id != projectId))
    (hsymbols : s.symbolChunks = st.store.symbolChunks.filter (·.projectId != projectId))
    (hobjects : s.objectChunks = st.store.objectChunks.filter (·.projectId != projectId))
    (hnext : s.nextProjectId = st.store.nextProjectId) :
    UploadInv ⟨s, deleting, st.declared⟩ where
  ids_nodup := by
    rw [hprojects]
    exact hinv.ids_nodup.sublist (List.filter_sublist.map _)
  id_lt p hp := by
    rw [hprojects] at hp
    exact hnext ▸ hinv.id_lt p (List.mem_of_mem_filter hp)
  symbolChunks_nodup := hsymbols ▸ hinv.symbolChunks_nodup.filter _
  objectChunks_nodup := hobjects ▸ hinv.objectChunks_nodup.filter _
  symbolChunk_lt c hc := by
    rw [hsymbols] at hc
    exact hnext ▸ hinv.symbolChunk_lt c (List.mem_of_mem_filter hc)
  objectChunk_lt c hc := by
    rw [hobjects] at hc
    exact hnext ▸ hinv.objectChunk_lt c (List.mem_of_mem_filter hc)
  uploading p hp hup := by
    rw [hprojects] at hp
    obtain ⟨symbolTotal, objectTotal, hs, ho, hd, hsc, hoc⟩ :=
      hinv.uploading p (List.mem_of_mem_filter hp) hup
    refine ⟨symbolTotal, objectTotal, hs, ho, hd, fun seq hseq => hsc seq ?_,
      fun seq hseq => hoc seq ?_⟩
    · rw [hsymbols] at hseq
      exact List.mem_of_mem_filter hseq
    · rw [hobjects] at hseq
      exact List.mem_of_mem_filter hseq

/-- A new project has the declared totals and no chunks. -/
theorem insert {s' : Store} {projectName rootPath : Text} {symbolTotal objectTotal : ℤ}
    {rootHash : Bytes} {created : ℤ × Store} (deleting : List ℤ)
    (h : st.store.insertProject projectName rootPath (some symbolTotal) (some objectTotal)
      rootHash = .ok created) (hs' : s' = created.2) :
    UploadInv ⟨s', deleting,
      Function.update st.declared created.1 (some (symbolTotal, objectTotal))⟩ := by
  subst hs'
  obtain ⟨hid, hnext, hprojects, hsymbols, hobjects, -, -⟩ := Store.insertProject_ok h
  have hold : ∀ p ∈ st.store.projects, p.id ≠ st.store.nextProjectId :=
    fun p hp => (hinv.id_lt p hp).ne
  constructor
  · rw [hprojects, List.map_append, List.nodup_append]
    refine ⟨hinv.ids_nodup, by simp, ?_⟩
    intro i hi j hj
    obtain ⟨p, hp, rfl⟩ := List.mem_map.mp hi
    obtain rfl : j = st.store.nextProjectId := by simpa using hj
    exact hold p hp
  · rw [hprojects, hnext]
    intro p hp
    rcases List.mem_append.mp hp with hp | hp
    · exact (hinv.id_lt p hp).trans (by omega)
    · obtain rfl := List.mem_singleton.mp hp
      exact Int.lt_succ _
  · exact hsymbols ▸ hinv.symbolChunks_nodup
  · exact hobjects ▸ hinv.objectChunks_nodup
  · rw [hsymbols, hnext]
    exact fun c hc => (hinv.symbolChunk_lt c hc).trans (by omega)
  · rw [hobjects, hnext]
    exact fun c hc => (hinv.objectChunk_lt c hc).trans (by omega)
  · rw [hprojects, hsymbols, hobjects, hid]
    intro p hp hup
    rcases List.mem_append.mp hp with hp | hp
    · simp only [Function.update_of_ne (hold p hp)]
      exact hinv.uploading p hp hup
    · obtain rfl := List.mem_singleton.mp hp
      refine ⟨symbolTotal, objectTotal, rfl, rfl, by simp, fun seq hseq => ?_, fun seq hseq => ?_⟩
      · exact absurd (hinv.symbolChunk_lt _ hseq) (lt_irrefl _)
      · exact absurd (hinv.objectChunk_lt _ hseq) (lt_irrefl _)

/-- A symbol chunk within the total is recorded. -/
theorem recordSymbolChunk {projectId seq : ℤ} (deleting : List ℤ)
    (hnew : ⟨projectId, seq⟩ ∉ st.store.symbolChunks)
    (hsome : (st.store.findProject projectId).isSome = true)
    (hsafe : ∀ p, st.store.findProject projectId = some p → p.uploadStatus = .uploading →
      inTotal p.symbolChunksTotal seq = true) :
    UploadInv ⟨st.store.recordSymbolChunk projectId seq, deleting, st.declared⟩ := by
  obtain ⟨q, hq⟩ := Option.isSome_iff_exists.mp hsome
  refine ⟨hinv.ids_nodup, hinv.id_lt, ?_, hinv.objectChunks_nodup, ?_, hinv.objectChunk_lt, ?_⟩
  · rw [Store.recordSymbolChunk, ← List.concat_eq_append]
    exact hinv.symbolChunks_nodup.concat hnew
  · intro c hc
    rcases List.mem_append.mp hc with hc | hc
    · exact hinv.symbolChunk_lt c hc
    · obtain rfl := List.mem_singleton.mp hc
      obtain ⟨hmem, hqid⟩ := Store.findProject_eq_some hq
      exact hqid ▸ hinv.id_lt q hmem
  · intro p hp hup
    obtain ⟨symbolTotal, objectTotal, hs, ho, hd, hsc, hoc⟩ := hinv.uploading p hp hup
    refine ⟨symbolTotal, objectTotal, hs, ho, hd, fun k hk => ?_, hoc⟩
    rcases List.mem_append.mp hk with hk | hk
    · exact hsc k hk
    · obtain ⟨hid, rfl⟩ := ProjectChunk.mk.inj (List.mem_singleton.mp hk)
      obtain rfl := hinv.eq_of_findProject hq hp hid
      simpa [inTotal, hs] using hsafe p hq hup

/-- An object chunk within the total is recorded. -/
theorem recordObjectChunk {projectId seq : ℤ} (deleting : List ℤ)
    (hnew : ⟨projectId, seq⟩ ∉ st.store.objectChunks)
    (hsome : (st.store.findProject projectId).isSome = true)
    (hsafe : ∀ p, st.store.findProject projectId = some p → p.uploadStatus = .uploading →
      inTotal p.objectChunksTotal seq = true) :
    UploadInv ⟨st.store.recordObjectChunk projectId seq, deleting, st.declared⟩ := by
  obtain ⟨q, hq⟩ := Option.isSome_iff_exists.mp hsome
  refine ⟨hinv.ids_nodup, hinv.id_lt, hinv.symbolChunks_nodup, ?_, hinv.symbolChunk_lt, ?_, ?_⟩
  · rw [Store.recordObjectChunk, ← List.concat_eq_append]
    exact hinv.objectChunks_nodup.concat hnew
  · intro c hc
    rcases List.mem_append.mp hc with hc | hc
    · exact hinv.objectChunk_lt c hc
    · obtain rfl := List.mem_singleton.mp hc
      obtain ⟨hmem, hqid⟩ := Store.findProject_eq_some hq
      exact hqid ▸ hinv.id_lt q hmem
  · intro p hp hup
    obtain ⟨symbolTotal, objectTotal, hs, ho, hd, hsc, hoc⟩ := hinv.uploading p hp hup
    refine ⟨symbolTotal, objectTotal, hs, ho, hd, hsc, fun k hk => ?_⟩
    rcases List.mem_append.mp hk with hk | hk
    · exact hoc k hk
    · obtain ⟨hid, rfl⟩ := ProjectChunk.mk.inj (List.mem_singleton.mp hk)
      obtain rfl := hinv.eq_of_findProject hq hp hid
      simpa [inTotal, ho] using hsafe p hq hup

/-- A resumed upload declares what the project was created with. -/
theorem resume {p : ProjectRow} {symbolTotal objectTotal : ℤ} (deleting : List ℤ)
    (hp : p ∈ st.store.projects) (hs : p.symbolChunksTotal = some symbolTotal)
    (ho : p.objectChunksTotal = some objectTotal) :
    UploadInv ⟨st.store, deleting,
      Function.update st.declared p.id (some (symbolTotal, objectTotal))⟩ := by
  refine ⟨hinv.ids_nodup, hinv.id_lt, hinv.symbolChunks_nodup, hinv.objectChunks_nodup,
    hinv.symbolChunk_lt, hinv.objectChunk_lt, fun q hq hup => ?_⟩
  obtain ⟨symbolTotal', objectTotal', hs', ho', hd, hchunks⟩ := hinv.uploading q hq hup
  refine ⟨symbolTotal', objectTotal', hs', ho', ?_, hchunks⟩
  by_cases hid : q.id = p.id
  · obtain rfl := List.inj_on_of_nodup_map hinv.ids_nodup hq hp hid
    obtain rfl := Option.some.inj (hs'.symm.trans hs)
    obtain rfl := Option.some.inj (ho'.symm.trans ho)
    exact Function.update_self ..
  · exact (Function.update_of_ne hid ..).trans hd

/-- **A safe request keeps the invariant.** -/
theorem serve {req : Request} (hadmits : st.admits req = true)
    (hsafe : uploadSafe st req = true) : UploadInv (st.serve hashBytes req) := by
  unfold UploadState.serve
  cases hreq : st.store.handle hashBytes req with
  | error e => exact hinv
  | ok c =>
    cases Store.handle_cases hreq with
    | @resumed upload symbolTotal objectTotal rootHash p hfind hstatus htotal =>
      simp only [UploadState.admits, Bool.and_eq_true] at hadmits
      obtain ⟨S, rfl⟩ := Option.isSome_iff_exists.mp hadmits.1
      obtain ⟨O, rfl⟩ := Option.isSome_iff_exists.mp hadmits.2
      have ho : p.objectChunksTotal = some O := by
        simpa [uploadSafe, hfind, hstatus, htotal] using hsafe
      exact hinv.resume st.deleting (List.mem_of_find?_eq_some hfind) htotal ho
    | @created upload symbolTotal objectTotal rootHash s' created purged hcleared hcreated =>
      simp only [UploadState.admits, Bool.and_eq_true] at hadmits
      obtain ⟨S, rfl⟩ := Option.isSome_iff_exists.mp hadmits.1
      obtain ⟨O, rfl⟩ := Option.isSome_iff_exists.mp hadmits.2
      have hs' : UploadInv ⟨s', st.deleting, st.declared⟩ := by
        rcases hcleared with ⟨rfl, -⟩ | ⟨z, -, -, -, rfl⟩
        · exact hinv
        · exact hinv.delete z.id st.deleting rfl rfl rfl rfl
      exact hs'.insert st.deleting hcreated rfl
    | symbolChunkAgain | objectChunkAgain | notFinalized | notMarked =>
      exact hinv.congr (.refl _) rfl
    | symbolChunk hnew hproject hinsert =>
      have hrecord := hinv.recordSymbolChunk st.deleting hnew hproject fun p hp hup => by
        simpa [uploadSafe, hp, hup] using hsafe
      exact hrecord.congr (Store.sameUploads_insertSymbols hinsert) rfl
    | objectChunk hnew hproject hinsert =>
      have hrecord := hinv.recordObjectChunk st.deleting hnew hproject fun p hp hup => by
        simpa [uploadSafe, hp, hup] using hsafe
      exact hrecord.congr (Store.sameUploads_doUploadObjects hinsert) rfl
    | contents => exact hinv.congr (Store.sameUploads_insertContents _ _) rfl
    | finalized => exact (hinv.setStatus _ (by decide) st.deleting).purge
    | @marked projectId =>
      have hset := hinv.setStatus projectId (show UploadStatus.deleting ≠ .uploading by decide)
        st.deleting
      exact hset.congr (.refl _) rfl
    | @deleted projectId =>
      obtain ⟨hp, hs, ho, hn⟩ := Store.deleteProject_eq st.store projectId
      exact hinv.delete projectId _ hp hs ho hn

end UploadInv

/-! ### Runs -/

section Runs

variable {hashBytes : Bytes → Text} {st : UploadState}

/-- What every transaction keeps holds of the store in every run of requests. -/
theorem storeInvariant_of_run {guard : UploadState → Request → Bool} {canaryRootHash : Bytes}
    {I : Store → Prop}
    (hstep : ∀ {s req c}, I s → s.handle hashBytes req = .ok c → I c.store)
    (hinitial : I (.initial canaryRootHash))
    (hrun : ReflTransGen (UploadStep hashBytes guard) (.initial canaryRootHash) st) :
    I st.store := by
  refine Runs.invariant_of_run (I := fun st => I st.store) ?_ hrun hinitial
  rintro st _ hst ⟨req, -, -, rfl⟩
  unfold UploadState.serve
  cases hhandle : st.store.handle hashBytes req with
  | error e => exact hst
  | ok c => exact hstep hst hhandle

/-- A status that is set completes no other project. -/
theorem isComplete_setStatus {s : Store} {projectId projectId' : ℤ} {status : UploadStatus}
    (h : IsComplete (s.setStatus projectId status) projectId') :
    (projectId' = projectId ∧ status = .complete) ∨ IsComplete s projectId' := by
  obtain ⟨q, hq, hid, hstatus⟩ := h
  obtain ⟨p, hp, rfl⟩ := List.mem_map.mp hq
  split at hid
  · next heq =>
    rw [if_pos heq] at hstatus
    exact Or.inl ⟨hid.symm.trans heq, hstatus⟩
  · next hne =>
    rw [if_neg hne] at hstatus
    exact Or.inr ⟨p, hp, hid, hstatus⟩

/-- Only finalising completes a project. -/
theorem exists_finalize {req : Request} {projectId : ℤ} (hbefore : ¬IsComplete st.store projectId)
    (hafter : IsComplete (st.serve hashBytes req).store projectId) :
    ∃ p, st.store.findProject projectId = some p ∧ p.uploadStatus = .uploading ∧
      (∀ n, p.symbolChunksTotal = some n →
        (Store.committedChunks st.store.symbolChunks projectId : ℤ) = n) ∧
      ∀ n, p.objectChunksTotal = some n →
        (Store.committedChunks st.store.objectChunks projectId : ℤ) = n := by
  unfold UploadState.serve at hafter
  have hsame : ∀ {s' : Store}, s'.projects = st.store.projects → ¬IsComplete s' projectId := by
    intro s' hs' h
    exact hbefore (by rwa [IsComplete, hs'] at h)
  cases hreq : st.store.handle hashBytes req with
  | error e => exact absurd (by simpa [hreq] using hafter) hbefore
  | ok c =>
    simp only [hreq] at hafter
    cases Store.handle_cases hreq with
    | resumed | symbolChunkAgain | objectChunkAgain | notFinalized | notMarked =>
      exact absurd hafter hbefore
    | created hcleared hcreated =>
      obtain ⟨q, hq, hid, hstatus⟩ := hafter
      obtain ⟨-, -, hprojects, -⟩ := Store.insertProject_ok hcreated
      rw [hprojects] at hq
      rcases List.mem_append.mp hq with hq | hq
      · have hold : q ∈ st.store.projects := by
          rcases hcleared with ⟨rfl, -⟩ | ⟨z, -, -, -, rfl⟩
          · exact hq
          · exact List.mem_of_mem_filter hq
        exact absurd ⟨q, hold, hid, hstatus⟩ hbefore
      · obtain rfl := List.mem_singleton.mp hq
        cases hstatus
    | symbolChunk hnew hproject hinsert =>
      exact absurd hafter (hsame (Store.sameUploads_insertSymbols hinsert).projects)
    | objectChunk hnew hproject hinsert =>
      exact absurd hafter (hsame (Store.sameUploads_doUploadObjects hinsert).projects)
    | contents => exact absurd hafter (hsame (Store.sameUploads_insertContents _ _).projects)
    | @finalized _ p hfind hstatus hsymbols hobjects =>
      rcases isComplete_setStatus hafter with ⟨rfl, -⟩ | hold
      · exact ⟨p, hfind, hstatus, hsymbols, hobjects⟩
      · exact absurd hold hbefore
    | marked =>
      rcases isComplete_setStatus hafter with ⟨-, ⟨⟩⟩ | hold
      exact absurd hold hbefore
    | @deleted id =>
      obtain ⟨q, hq, hid, hstatus⟩ := hafter
      rw [(Store.deleteProject_eq st.store id).1] at hq
      exact absurd ⟨q, List.mem_of_mem_filter hq, hid, hstatus⟩ hbefore

/-- The invariant makes every completion exact. -/
theorem UploadInv.completesExactly (hinv : UploadInv st) : CompletesExactly hashBytes st := by
  intro req projectId _ hbefore hafter
  obtain ⟨p, hp, hup, hscount, hocount⟩ := exists_finalize hbefore hafter
  obtain ⟨hmem, rfl⟩ := Store.findProject_eq_some hp
  obtain ⟨symbolTotal, objectTotal, hs, ho, hd, hsc, hoc⟩ := hinv.uploading p hmem hup
  exact ⟨symbolTotal, objectTotal, hd,
    eq_range_of_card hinv.symbolChunks_nodup hsc (hscount _ hs),
    eq_range_of_card hinv.objectChunks_nodup hoc (hocount _ ho)⟩

/-- **Complete uploads.**  In every run of requests that declare both totals, commit no stray
chunk and resume no upload with another total of object chunks, a project becomes complete
only when its symbol and object chunks are exactly those declared last. -/
theorem chunksExact_of_run (hashBytes : Bytes → Text) (canaryRootHash : Bytes)
    {st : UploadState}
    (hrun : ReflTransGen (UploadStep hashBytes uploadSafe) (.initial canaryRootHash) st) :
    CompletesExactly hashBytes st := by
  have hinv : UploadInv st := by
    refine Runs.invariant_of_run (I := UploadInv) ?_ hrun (uploadInv_initial canaryRootHash)
    rintro st _ hinv ⟨req, hadmits, hsafe, rfl⟩
    exact hinv.serve hadmits hsafe
  exact hinv.completesExactly

end Runs

/-! ### Samples -/

/-- Serve requests one after the other, as long as each can come and meets a guard. -/
def serveAll (hashBytes : Bytes → Text) (guard : UploadState → Request → Bool) :
    UploadState → List Request → Option UploadState
  | st, [] => some st
  | st, req :: reqs =>
    if st.admits req && guard st req then serveAll hashBytes guard (st.serve hashBytes req) reqs
    else none

theorem run_of_serveAll {hashBytes : Bytes → Text} {guard : UploadState → Request → Bool}
    {st st' : UploadState} {reqs : List Request}
    (h : serveAll hashBytes guard st reqs = some st') :
    ReflTransGen (UploadStep hashBytes guard) st st' := by
  induction reqs generalizing st with
  | nil =>
    obtain rfl := Option.some.inj h
    exact .refl
  | cons req reqs ih =>
    rw [serveAll] at h
    split at h
    · next hreq =>
      obtain ⟨hadmits, hguard⟩ := Bool.and_eq_true_iff.mp hreq
      exact .head ⟨req, hadmits, hguard, rfl⟩ (ih h)
    · cases h

/-- A project `p`, without the payload of the chunks. -/
def sampleUpload : UploadProject := ⟨['p'], ['/', 'p'], [], []⟩

/-- A project of one symbol chunk and one object chunk, both committed, is completed. -/
theorem chunksExact_of_complete : ∃ st,
    ReflTransGen (UploadStep (fun _ => []) uploadSafe) (.initial [0]) st ∧
      ¬IsComplete st.store 1 ∧ IsComplete (st.serve (fun _ => []) (.finalize 1)).store 1 ∧
      ChunksExact st 1 := by
  obtain ⟨st, hrun, hobs⟩ := Option.map_eq_some_iff.mp (show
    (serveAll (fun _ => []) uploadSafe (.initial [0])
      [.uploadIndex sampleUpload (some 1) (some 1) [1], .symbolChunk 1 0 sampleUpload,
        .objectChunk 1 0 sampleUpload]).map (fun st => decide (¬IsComplete st.store 1 ∧
          IsComplete (st.serve (fun _ => []) (.finalize 1)).store 1)) = some true
    by decide +kernel)
  obtain ⟨hbefore, hafter⟩ := of_decide_eq_true hobs
  have hsteps := run_of_serveAll hrun
  exact ⟨st, hsteps, hbefore, hafter,
    chunksExact_of_run (fun _ => []) [0] hsteps (.finalize 1) 1 rfl hbefore hafter⟩

/-- **Uploads that are completed and are not complete.**  The one symbol chunk declared is
hidden by a stray chunk with the number 7; and an upload that is resumed with two object
chunks is completed with the one it was created with. -/
theorem not_chunksExact_of_stray :
    (∃ st, ReflTransGen (UploadStep (fun _ => []) fun _ _ => true) (.initial [0]) st ∧
      ¬IsComplete st.store 1 ∧ IsComplete (st.serve (fun _ => []) (.finalize 1)).store 1 ∧
      st.declared 1 = some (1, 0) ∧ st.store.symbolChunks = [⟨1, 7⟩] ∧ ¬ChunksExact st 1) ∧
    ∃ st, ReflTransGen (UploadStep (fun _ => []) fun _ _ => true) (.initial [0]) st ∧
      ¬IsComplete st.store 1 ∧ IsComplete (st.serve (fun _ => []) (.finalize 1)).store 1 ∧
      st.declared 1 = some (0, 2) ∧ st.store.objectChunks = [⟨1, 0⟩] ∧ ¬ChunksExact st 1 := by
  constructor
  · obtain ⟨st, hrun, hobs⟩ := Option.map_eq_some_iff.mp (show
      (serveAll (fun _ => []) (fun _ _ => true) (.initial [0])
        [.uploadIndex sampleUpload (some 1) (some 0) [1], .symbolChunk 1 7 sampleUpload]).map
          (fun st => decide (¬IsComplete st.store 1 ∧
            IsComplete (st.serve (fun _ => []) (.finalize 1)).store 1 ∧
            st.declared 1 = some (1, 0) ∧ st.store.symbolChunks = [⟨1, 7⟩])) = some true
      by decide +kernel)
    obtain ⟨hbefore, hafter, hdeclared, hchunks⟩ := of_decide_eq_true hobs
    refine ⟨st, run_of_serveAll hrun, hbefore, hafter, hdeclared, hchunks, ?_⟩
    rintro ⟨S, O, hd, hs, -⟩
    obtain ⟨rfl, rfl⟩ := Prod.mk.inj (Option.some.inj (hdeclared.symm.trans hd))
    have hzero := (hs 0).mpr ⟨le_refl 0, by decide⟩
    simp [hchunks] at hzero
  · obtain ⟨st, hrun, hobs⟩ := Option.map_eq_some_iff.mp (show
      (serveAll (fun _ => []) (fun _ _ => true) (.initial [0])
        [.uploadIndex sampleUpload (some 0) (some 1) [1], .objectChunk 1 0 sampleUpload,
          .uploadIndex sampleUpload (some 0) (some 2) [2]]).map
          (fun st => decide (¬IsComplete st.store 1 ∧
            IsComplete (st.serve (fun _ => []) (.finalize 1)).store 1 ∧
            st.declared 1 = some (0, 2) ∧ st.store.objectChunks = [⟨1, 0⟩])) = some true
      by decide +kernel)
    obtain ⟨hbefore, hafter, hdeclared, hchunks⟩ := of_decide_eq_true hobs
    refine ⟨st, run_of_serveAll hrun, hbefore, hafter, hdeclared, hchunks, ?_⟩
    rintro ⟨S, O, hd, -, ho⟩
    obtain ⟨rfl, rfl⟩ := Prod.mk.inj (Option.some.inj (hdeclared.symm.trans hd))
    have hone := (ho 1).mpr ⟨by decide, by decide⟩
    simp [hchunks] at hone

end Askl
