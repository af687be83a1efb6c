import Askl.Store.Catalogue
import Askl.Store.UploadProtocol

/-!
# Every symbol arrives once

A symbol chunk may be sent several times and by several clients of one upload, and its
transaction may run again after its response was lost.  The record of a chunk and its symbols
are committed together, and a chunk that is recorded is not inserted again; so the symbols of a
project are those of its recorded chunks, each of them once.

## Main definitions

* `UploadArgs.chunkSymbols` — the rows of a symbol chunk.
* `SymbolsDelivered` — the symbols of a project are those of its recorded chunks.
* `FromUpload` — every project of the name comes from the upload.
* `Store.SameUpload` — a request that brings no other chunks.

## Main results

* `FromUpload.handle` — requests with chunks of the upload keep it.
* `symbols_perm_of_run` — **an upload that is done has put each of its symbols into the project
  once, and no others.**
-/

namespace Askl

open Relation Exchange

/-! ### Symbols and their chunks -/

/-- The rows of the symbol chunk of a number, if there is one and its symbols are good. -/
def UploadArgs.chunkSymbols (u : UploadArgs) (projectId rootLayerId seq : ℤ) :
    Option (List NewSymbol) :=
  (u.symbolChunks.find? (·.1 == seq)).bind fun c =>
    (buildSymbols projectId rootLayerId c.2.symbols).toOption

namespace Store

/-- The symbols of a project. -/
def symbolsOf (s : Store) (projectId : ℤ) : List NewSymbol :=
  s.symbols.filter (·.projectId == projectId)

/-- The symbol chunks recorded for a project. -/
def symbolChunksOf (s : Store) (projectId : ℤ) : List ProjectChunk :=
  s.symbolChunks.filter (·.projectId == projectId)

/-- A request that brings a project of the upload's name no chunk but one of the upload's. -/
def SameUpload (u : UploadArgs) (s : Store) : Request → Prop
  | .symbolChunk projectId seq upload => ∀ p ∈ s.projects, p.id = projectId →
      p.projectName = u.name → ∃ chunk, u.symbolChunks.find? (·.1 == seq) = some (seq, chunk) ∧
        chunk.symbols = upload.symbols
  | _ => True

end Store

/-- The symbols of a project are those of its chunks, which are all of the upload. -/
structure SymbolsDelivered (u : UploadArgs) (projectId rootLayerId : ℤ) (symbols : List NewSymbol)
    (chunks : List ProjectChunk) : Prop where
  built : ∀ c ∈ chunks, ∃ rows, u.chunkSymbols projectId rootLayerId c.seq = some rows
  rows : symbols.Perm
    (chunks.flatMap fun c => (u.chunkSymbols projectId rootLayerId c.seq).getD [])

/-- What the projects of the upload's name have comes from the upload, and no project has
anything before it is there. -/
structure FromUpload (u : UploadArgs) (s : Store) : Prop where
  filed : s.Filed
  nodup : s.symbolChunks.Nodup
  chunk_lt : ∀ c ∈ s.symbolChunks, c.projectId < s.nextProjectId
  symbol_lt : ∀ x ∈ s.symbols, x.projectId < s.nextProjectId
  delivered : ∀ p ∈ s.projects, p.projectName = u.name →
    SymbolsDelivered u p.id p.rootLayerId (s.symbolsOf p.id) (s.symbolChunksOf p.id)

section Rows

variable {u : UploadArgs} {projectId rootLayerId : ℤ}

/-- The symbols of a chunk are built one by one. -/
theorem mapM_of_buildSymbolsFrom {seen : List ℤ} {symbols : List UploadSymbol}
    {rows : List NewSymbol} (h : buildSymbolsFrom projectId rootLayerId seen symbols = .ok rows) :
    symbols.mapM (buildSymbol projectId rootLayerId) = .ok rows := by
  induction symbols generalizing seen rows with
  | nil => exact h
  | cons symbol symbols ih =>
    unfold buildSymbolsFrom at h
    split at h
    · cases h
    · obtain ⟨row, hrow, h⟩ := Fallible.bind_eq_ok.mp h
      obtain ⟨rest, hrest, h⟩ := Fallible.bind_eq_ok.mp h
      rw [List.mapM_cons]
      exact Fallible.bind_eq_ok.mpr ⟨row, hrow, Fallible.bind_eq_ok.mpr ⟨rest, ih hrest, h⟩⟩

/-- A symbol belongs to its project and to the root layer of this. -/
theorem of_buildSymbol {symbol : UploadSymbol} {row : NewSymbol}
    (h : buildSymbol projectId rootLayerId symbol = .ok row) :
    row.projectId = projectId ∧ row.layer = rootLayerId := by
  obtain ⟨id, -, h⟩ := Fallible.bind_eq_ok.mp h
  obtain ⟨symbolType, -, h⟩ := Fallible.bind_eq_ok.mp h
  obtain rfl := Except.ok.inj h
  exact ⟨rfl, rfl⟩

theorem of_buildSymbols {symbols : List UploadSymbol} {rows : List NewSymbol}
    (h : buildSymbols projectId rootLayerId symbols = .ok rows) :
    ∀ row ∈ rows, row.projectId = projectId ∧ row.layer = rootLayerId := by
  intro row hrow
  obtain ⟨symbol, -, hsymbol⟩ := Fallible.exists_of_mem_mapM (mapM_of_buildSymbolsFrom h) hrow
  exact of_buildSymbol hsymbol

theorem chunkSymbols_eq_some {seq : ℤ} {rows : List NewSymbol} :
    u.chunkSymbols projectId rootLayerId seq = some rows ↔
      ∃ c, u.symbolChunks.find? (·.1 == seq) = some c ∧
        buildSymbols projectId rootLayerId c.2.symbols = .ok rows := by
  rw [UploadArgs.chunkSymbols, Option.bind_eq_some_iff]
  refine exists_congr fun c => and_congr_right fun _ => ?_
  cases buildSymbols projectId rootLayerId c.2.symbols with
  | error e => exact iff_of_false (fun h => by cases h) fun h => by cases h
  | ok built =>
    exact ⟨fun h => congrArg _ (Option.some.inj h), fun h => congrArg _ (Except.ok.inj h)⟩

/-- The symbols of a project that comes from the upload are on its root layer. -/
theorem SymbolsDelivered.layer_eq {symbols : List NewSymbol} {chunks : List ProjectChunk}
    (h : SymbolsDelivered u projectId rootLayerId symbols chunks) {x : NewSymbol}
    (hx : x ∈ symbols) : x.layer = rootLayerId := by
  obtain ⟨c, hc, hx⟩ := List.mem_flatMap.mp (h.rows.mem_iff.mp hx)
  obtain ⟨rows, hrows⟩ := h.built c hc
  rw [hrows] at hx
  obtain ⟨chunk, -, hbuilt⟩ := chunkSymbols_eq_some.mp hrows
  exact (of_buildSymbols hbuilt x hx).2

end Rows

/-! ### Requests -/

section Requests

variable {u : UploadArgs} {hashBytes : Bytes → Text} {s s' : Store} {projectId : ℤ}

/-- What a filter leaves alone of a project. -/
theorem symbolsOf_filter {keep : NewSymbol → Bool} {symbols : List NewSymbol}
    (h : ∀ x ∈ symbols.filter (·.projectId == projectId), keep x = true) :
    (symbols.filter keep).filter (·.projectId == projectId) =
      symbols.filter (·.projectId == projectId) := by
  rw [List.filter_comm]
  exact List.filter_eq_self.mpr h

theorem symbols_doUploadObjects {upload : UploadProject}
    (h : s.doUploadObjects hashBytes projectId upload = .ok s') : s'.symbols = s.symbols := by
  obtain ⟨_, _, inserted, -, -, -, hinserted, _, _, _, _, rfl⟩ := Store.doUploadObjects_stages h
  obtain ⟨objects, nextObjectId, contentStore, hobjects⟩ := Store.insertObjects_frame hinserted
  rw [hobjects]

theorem symbols_of_foldlM {rows : List NewSymbol}
    (h : rows.foldlM Store.insertSymbol s = .ok s') : s'.symbols = s.symbols ++ rows := by
  induction rows generalizing s with
  | nil =>
    obtain rfl := Except.ok.inj h
    exact (List.append_nil _).symm
  | cons row rows ih =>
    rw [List.foldlM_cons] at h
    obtain ⟨s₁, hs₁, h⟩ := Fallible.bind_eq_ok.mp h
    unfold Store.insertSymbol at hs₁
    split at hs₁
    · cases hs₁
    · obtain rfl := Except.ok.inj hs₁
      rw [ih h, List.append_assoc, List.singleton_append]

/-- A chunk's symbols come after the others. -/
theorem insertSymbols_eq_ok {symbols : List UploadSymbol}
    (h : s.insertSymbols projectId symbols = .ok s') : ∃ p rows, s.findProject projectId = some p ∧
      buildSymbols projectId p.rootLayerId symbols = .ok rows ∧ s'.symbols = s.symbols ++ rows := by
  obtain ⟨root, hroot, hbuild⟩ := Fallible.bind_eq_ok.mp h
  obtain ⟨rows, hrows, hinsert⟩ := Fallible.bind_eq_ok.mp hbuild
  unfold Store.rootLayerOf at hroot
  split at hroot
  · cases hroot
  next p hp =>
  obtain rfl := Except.ok.inj hroot
  exact ⟨p, rows, hp, hrows, symbols_of_foldlM hinsert⟩

namespace FromUpload

/-- Projects that were there before keep what they have. -/
theorem change (h : FromUpload u s) (hfiled : s'.Filed)
    (hchunks : s'.symbolChunks.Sublist s.symbolChunks)
    (hsymbols : ∀ x ∈ s'.symbols, x ∈ s.symbols) (hnext : s.nextProjectId ≤ s'.nextProjectId)
    (hprojects : ∀ p' ∈ s'.projects, p'.projectName = u.name →
      (∃ p ∈ s.projects, p.id = p'.id ∧ p.projectName = p'.projectName ∧
        p.rootLayerId = p'.rootLayerId ∧ s'.symbolsOf p.id = s.symbolsOf p.id ∧
        s'.symbolChunksOf p.id = s.symbolChunksOf p.id) ∨
      s'.symbolsOf p'.id = [] ∧ s'.symbolChunksOf p'.id = []) : FromUpload u s' where
  filed := hfiled
  nodup := h.nodup.sublist hchunks
  chunk_lt c hc := (h.chunk_lt c (hchunks.subset hc)).trans_le hnext
  symbol_lt x hx := (h.symbol_lt x (hsymbols x hx)).trans_le hnext
  delivered p' hp' hname := by
    rcases hprojects p' hp' hname with ⟨p, hp, hid, hname', hroot, hsame, hsame'⟩ | ⟨hnil, hnil'⟩
    · rw [← hid, ← hroot, hsame, hsame']
      exact h.delivered p hp (hname'.trans hname)
    · rw [hnil, hnil']
      exact ⟨List.forall_mem_nil _, .refl _⟩

/-- A request that touches neither projects nor symbols. -/
theorem of_sameUploads (h : FromUpload u s) (hfiled : s'.Filed) (hsame : Store.SameUploads s s')
    (hsymbols : s'.symbols = s.symbols) : FromUpload u s' := by
  refine h.change hfiled (hsame.symbolChunks ▸ .refl _) (fun x hx => hsymbols ▸ hx)
    hsame.nextProjectId.ge fun p hp _ => Or.inl ⟨p, hsame.projects ▸ hp, rfl, rfl, rfl, ?_, ?_⟩
  · rw [Store.symbolsOf, hsymbols, Store.symbolsOf]
  · rw [Store.symbolChunksOf, hsame.symbolChunks, Store.symbolChunksOf]

/-- The symbols of one project survive the deletion of another. -/
theorem symbolsOf_delete (h : FromUpload u s) {p z : ProjectRow} (hp : p ∈ s.projects)
    (hname : p.projectName = u.name) (hz : z ∈ s.projects) (hne : p.id ≠ z.id) :
    ((s.symbols.filter (·.projectId != z.id)).filter (·.layer != z.rootLayerId)).filter
      (·.projectId == p.id) = s.symbolsOf p.id := by
  have hroot : p.rootLayerId ≠ z.rootLayerId := by
    intro heq
    exact hne (congrArg _ (List.inj_on_of_nodup_map h.filed.rootIds hp hz heq))
  have hproject : ∀ x ∈ s.symbols.filter (·.projectId == p.id), (x.projectId != z.id) = true := by
    intro x hx
    have hid : x.projectId = p.id := by simpa using (List.mem_filter.mp hx).2
    simpa [hid] using hne
  rw [symbolsOf_filter, symbolsOf_filter hproject]
  · rfl
  · rw [symbolsOf_filter hproject]
    intro x hx
    have hlayer := (h.delivered p hp hname).layer_eq hx
    simpa [hlayer] using hroot

/-- The chunks of one project survive the deletion of another. -/
theorem symbolChunksOf_delete {p z : ProjectRow} (hne : p.id ≠ z.id) :
    (s.symbolChunks.filter (·.projectId != z.id)).filter (·.projectId == p.id) =
      s.symbolChunksOf p.id := by
  rw [List.filter_comm]
  refine List.filter_eq_self.mpr fun c hc => ?_
  have hid : c.projectId = p.id := by simpa using (List.mem_filter.mp hc).2
  simpa [hid] using hne

/-- A new project has nothing. -/
theorem insertProject (h : FromUpload u s) {projectName rootPath : Text}
    {symbolTotal objectTotal : Option ℤ} {rootHash : Bytes} {created : ℤ × Store}
    (hcreated : s.insertProject projectName rootPath symbolTotal objectTotal rootHash =
      .ok created) : FromUpload u created.2 := by
  have hfiled := h.filed.insertProject hcreated
  obtain ⟨_, _, _, _, hframe⟩ := Store.insertProject_frame hcreated
  obtain ⟨-, hnext, hprojects, hchunks, -, -, -⟩ := Store.insertProject_ok hcreated
  have hsymbols : created.2.symbols = s.symbols := by rw [hframe]
  refine h.change hfiled (hchunks ▸ .refl _) (fun x hx => hsymbols ▸ hx) (by omega) ?_
  intro p hp hname
  have hsame : created.2.symbolsOf p.id = s.symbolsOf p.id := by
    rw [Store.symbolsOf, hsymbols, Store.symbolsOf]
  have hsame' : created.2.symbolChunksOf p.id = s.symbolChunksOf p.id := by
    rw [Store.symbolChunksOf, hchunks, Store.symbolChunksOf]
  rw [hprojects] at hp
  rcases List.mem_append.mp hp with hp | hp
  · exact Or.inl ⟨p, hp, rfl, rfl, rfl, hsame, hsame'⟩
  · right
    obtain rfl := List.mem_singleton.mp hp
    constructor
    · rw [hsame]
      refine List.filter_eq_nil_iff.mpr fun x hx heq => ?_
      have hlt := h.symbol_lt x hx
      rw [beq_iff_eq.mp heq] at hlt
      exact lt_irrefl _ hlt
    · rw [hsame']
      refine List.filter_eq_nil_iff.mpr fun c hc heq => ?_
      have hlt := h.chunk_lt c hc
      rw [beq_iff_eq.mp heq] at hlt
      exact lt_irrefl _ hlt

/-- The project of a deletion goes, with what it has. -/
theorem delete (h : FromUpload u s) {z : ProjectRow} (hz : z ∈ s.projects) (hfiled : s'.Filed)
    (hprojects : s'.projects = s.projects.filter (·.id != z.id))
    (hsymbols : s'.symbols =
      (s.symbols.filter (·.projectId != z.id)).filter (·.layer != z.rootLayerId))
    (hchunks : s'.symbolChunks = s.symbolChunks.filter (·.projectId != z.id))
    (hnext : s'.nextProjectId = s.nextProjectId) : FromUpload u s' := by
  refine h.change hfiled (hchunks ▸ List.filter_sublist) ?_ hnext.ge fun p hp hname => ?_
  · rw [hsymbols]
    intro x hx
    exact List.mem_of_mem_filter (List.mem_of_mem_filter hx)
  · left
    rw [hprojects] at hp
    obtain ⟨hp, hne⟩ := List.mem_filter.mp hp
    have hne : p.id ≠ z.id := by simpa using hne
    refine ⟨p, hp, rfl, rfl, rfl, ?_, ?_⟩
    · rw [Store.symbolsOf, hsymbols, h.symbolsOf_delete hp hname hz hne]
    · rw [Store.symbolChunksOf, hchunks, symbolChunksOf_delete hne]

/-- The status of a project changes. -/
theorem setStatus (h : FromUpload u s) (hfiled : s'.Filed) {status : UploadStatus}
    (hprojects : s'.projects = (s.setStatus projectId status).projects)
    (hsymbols : s'.symbols = s.symbols) (hchunks : s'.symbolChunks = s.symbolChunks)
    (hnext : s'.nextProjectId = s.nextProjectId) : FromUpload u s' := by
  refine h.change hfiled (hchunks ▸ .refl _) (fun x hx => hsymbols ▸ hx) hnext.ge fun p' hp' _ => ?_
  left
  rw [hprojects] at hp'
  obtain ⟨p, hp, rfl⟩ := List.mem_map.mp hp'
  refine ⟨p, hp, ?_, ?_, ?_, by rw [Store.symbolsOf, hsymbols, Store.symbolsOf],
    by rw [Store.symbolChunksOf, hchunks, Store.symbolChunksOf]⟩
  · split <;> rfl
  · split <;> rfl
  · split <;> rfl

/-- A symbol chunk of the upload brings its rows, and its record. -/
theorem symbolChunk (h : FromUpload u s) {seq : ℤ} {upload : UploadProject} (hfiled : s'.Filed)
    (hnew : ⟨projectId, seq⟩ ∉ s.symbolChunks)
    (hsame : s.SameUpload u (.symbolChunk projectId seq upload))
    (hinsert : (s.recordSymbolChunk projectId seq).insertSymbols projectId upload.symbols =
      .ok s') : FromUpload u s' := by
  have huploads := Store.sameUploads_insertSymbols hinsert
  obtain ⟨q, rows, hq, hrows, hsymbols⟩ := insertSymbols_eq_ok hinsert
  obtain ⟨hqmem, rfl⟩ := Store.findProject_eq_some hq
  have hprojects : s'.projects = s.projects := huploads.projects
  have hchunks : s'.symbolChunks = s.symbolChunks ++ [⟨q.id, seq⟩] := huploads.symbolChunks
  have hnext : s'.nextProjectId = s.nextProjectId := huploads.nextProjectId
  have hlt : q.id < s.nextProjectId := h.filed.projectIds_lt q hqmem
  have hsymbols : s'.symbols = s.symbols ++ rows := hsymbols
  refine ⟨hfiled, ?_, ?_, ?_, ?_⟩
  · rw [hchunks, ← List.concat_eq_append]
    exact h.nodup.concat hnew
  · rw [hchunks, hnext]
    intro c hc
    rcases List.mem_append.mp hc with hc | hc
    · exact h.chunk_lt c hc
    · obtain rfl := List.mem_singleton.mp hc
      exact hlt
  · rw [hsymbols, hnext]
    intro x hx
    rcases List.mem_append.mp hx with hx | hx
    · exact h.symbol_lt x hx
    · rw [(of_buildSymbols hrows x hx).1]
      exact hlt
  · intro p hp hname
    rw [hprojects] at hp
    rw [Store.symbolsOf, hsymbols, List.filter_append, Store.symbolChunksOf, hchunks,
      List.filter_append]
    have hold := h.delivered p hp hname
    by_cases hid : p.id = q.id
    · -- the chunk is one of the upload's, and goes to this project
      obtain rfl := List.inj_on_of_nodup_map h.filed.projectIds hp hqmem hid
      obtain ⟨chunk, hfind, heq⟩ := hsame p hp rfl hname
      have hchunk : u.chunkSymbols p.id p.rootLayerId seq = some rows :=
        chunkSymbols_eq_some.mpr ⟨_, hfind, by rw [heq]; exact hrows⟩
      have hall : rows.filter (·.projectId == p.id) = rows := by
        refine List.filter_eq_self.mpr fun x hx => ?_
        simpa using (of_buildSymbols hrows x hx).1
      have hone : [(⟨p.id, seq⟩ : ProjectChunk)].filter (·.projectId == p.id) = [⟨p.id, seq⟩] := by
        simp
      rw [hall, hone]
      refine ⟨fun c hc => ?_, ?_⟩
      · rcases List.mem_append.mp hc with hc | hc
        · exact hold.built c hc
        · obtain rfl := List.mem_singleton.mp hc
          exact ⟨rows, hchunk⟩
      · rw [List.flatMap_append]
        refine hold.rows.append ?_
        simp [hchunk]
    · have hnone : rows.filter (·.projectId == p.id) = [] := by
        refine List.filter_eq_nil_iff.mpr fun x hx heq => hid ?_
        rw [← (of_buildSymbols hrows x hx).1]
        exact (beq_iff_eq.mp heq).symm
      have hnone' : [(⟨q.id, seq⟩ : ProjectChunk)].filter (·.projectId == p.id) = [] := by
        refine List.filter_eq_nil_iff.mpr fun c hc heq => hid ?_
        obtain rfl := List.mem_singleton.mp hc
        exact (beq_iff_eq.mp heq).symm
      rw [hnone, hnone', List.append_nil, List.append_nil]
      exact hold

/-- **Requests that bring chunks of the upload only keep the projects as uploaded.** -/
theorem handle (h : FromUpload u s) {req : Request} {c : Committed Response}
    (hsame : s.SameUpload u req) (hreq : s.handle hashBytes req = .ok c) :
    FromUpload u c.store := by
  have hfiled := h.filed.handle hreq
  cases Store.handle_cases hreq with
  | resumed | symbolChunkAgain | objectChunkAgain | notFinalized | notMarked => exact h
  | created hcleared hcreated =>
    rcases hcleared with ⟨rfl, -⟩ | ⟨z, hz, hstatus, hpurged, rfl⟩
    · exact h.insertProject hcreated
    · have hcleared := h.filed.cleared (Or.inr ⟨z, hz, hstatus, hpurged, rfl⟩)
      exact (h.delete hz hcleared rfl rfl rfl rfl).insertProject hcreated
  | symbolChunk hnew hproject hinsert => exact h.symbolChunk hfiled hnew hsame hinsert
  | objectChunk hnew hproject hinsert =>
    have huploads := Store.sameUploads_doUploadObjects hinsert
    refine h.change hfiled (huploads.symbolChunks ▸ .refl _)
      (fun x hx => symbols_doUploadObjects hinsert ▸ hx) huploads.nextProjectId.ge fun p hp _ => ?_
    refine Or.inl ⟨p, huploads.projects ▸ hp, rfl, rfl, rfl, ?_, ?_⟩
    · rw [Store.symbolsOf, symbols_doUploadObjects hinsert]
      rfl
    · rw [Store.symbolChunksOf, huploads.symbolChunks]
      rfl
  | @contents _ rows =>
    have hsame := Store.sameUploads_insertContents s rows
    obtain ⟨contentStore, hcontents⟩ := Store.insertContents_eq s rows
    exact h.of_sameUploads hfiled hsame (by rw [hcontents])
  | finalized => exact h.setStatus hfiled rfl rfl rfl rfl
  | marked => exact h.setStatus hfiled rfl rfl rfl rfl
  | @deleted projectId =>
    obtain ⟨hprojects, hchunks, -, hnext⟩ := Store.deleteProject_eq s projectId
    cases hfind : s.findProject projectId with
    | some z =>
      obtain ⟨hz, rfl⟩ := Store.findProject_eq_some hfind
      refine h.delete hz hfiled hprojects ?_ hchunks hnext
      simp only [Store.deleteProject, hfind]
      show ((s.symbols.filter _).filter _).filter _ = _
      rw [List.filter_filter (l := s.symbols), List.filter_filter, List.filter_filter]
      congr 1
      funext x
      simp
    | none =>
      -- there is no such project, and the others have other ids
      have hne : ∀ p ∈ s.projects, p.id ≠ projectId := by
        intro p hp
        simpa using List.find?_eq_none.mp hfind p hp
      have hsymbols : (s.deleteProject projectId).store.symbols =
          (s.symbols.filter (·.projectId != projectId)).filter (·.projectId != projectId) := by
        simp only [Store.deleteProject, hfind]
        rfl
      refine h.change hfiled (hchunks ▸ List.filter_sublist) ?_ hnext.ge fun p hp _ => ?_
      · rw [hsymbols]
        intro x hx
        exact List.mem_of_mem_filter (List.mem_of_mem_filter hx)
      · rw [hprojects] at hp
        have hp := List.mem_of_mem_filter hp
        refine Or.inl ⟨p, hp, rfl, rfl, rfl, ?_, ?_⟩
        · have hkeep : ∀ x ∈ s.symbols.filter (·.projectId == p.id),
              (x.projectId != projectId) = true := by
            intro x hx
            have hid : x.projectId = p.id := by simpa using (List.mem_filter.mp hx).2
            simpa [hid] using hne p hp
          rw [Store.symbolsOf, hsymbols, symbolsOf_filter, symbolsOf_filter hkeep]
          · rfl
          · rw [symbolsOf_filter hkeep]
            exact hkeep
        · rw [Store.symbolChunksOf, hchunks, List.filter_comm]
          refine List.filter_eq_self.mpr fun c hc => ?_
          have hid : c.projectId = p.id := by simpa using (List.mem_filter.mp hc).2
          simpa [hid] using hne p hp

end FromUpload

end Requests

/-! ### Runs -/

section Runs

variable {hashBytes : Bytes → Text} {allowed : Store → Request → Prop} {u : UploadArgs}
  {s : Store} {projectId : ℤ}

/-- `as i32` tells numbers apart that are below `2 ^ 32`. -/
theorem asI32_inj {m n : ℕ} (hm : m < 2 ^ 32) (hn : n < 2 ^ 32) (h : asI32 m = asI32 n) :
    m = n := by
  have hbits := congrArg BitVec.toNat (BitVec.eq_of_toInt_eq h)
  simp only [BitVec.toNat_ofNat] at hbits
  omega

/-- As long as the numbers fit, every chunk has one of its own. -/
theorem nodup_numbered {α β : Type} (rows : List α) (f : α → β) (hfits : rows.length ≤ 2 ^ 32) :
    ((rows.zipIdx.map fun c => (asI32 c.2, f c.1)).map (·.1)).Nodup := by
  have hseqs : (rows.zipIdx.map fun c => (asI32 c.2, f c.1)).map (·.1) =
      (List.range rows.length).map asI32 := by
    rw [List.range_eq_range', ← List.zipIdx_map_snd 0 rows, List.map_map, List.map_map]
    rfl
  rw [hseqs]
  refine List.nodup_range.map_on fun m hm n hn heq => ?_
  have hm := List.mem_range.mp hm
  have hn := List.mem_range.mp hn
  exact asI32_inj (by omega) (by omega) heq

theorem nodup_symbolSeqs (hfits : u.symbolChunks.length ≤ 2 ^ 32) :
    (u.symbolChunks.map (·.1)).Nodup := by
  rw [UploadArgs.symbolChunks, List.length_map, List.length_zipIdx] at hfits
  exact nodup_numbered _ _ hfits

theorem find?_numbered {β : Type} {numbered : List (ℤ × β)} (hnodup : (numbered.map (·.1)).Nodup)
    {c : ℤ × β} (hc : c ∈ numbered) : numbered.find? (·.1 == c.1) = some c := by
  cases hfind : numbered.find? (·.1 == c.1) with
  | none => exact absurd (List.find?_eq_none.mp hfind c hc) (by simp)
  | some c' =>
    have hseq : c'.1 = c.1 := by simpa using List.find?_some hfind
    rw [List.inj_on_of_nodup_map hnodup (List.mem_of_find?_eq_some hfind) hc hseq]

/-- The symbols of an upload, chunk by chunk. -/
theorem flatMap_symbolChunks (u : UploadArgs) :
    u.symbolChunks.flatMap (·.2.symbols) = u.allSymbols := by
  have hsymbols : u.symbolChunks.map (·.2.symbols) = chunks symbolsPerChunk u.allSymbols := by
    simp only [UploadArgs.symbolChunks, List.map_map]
    exact List.zipIdx_map_fst 0 _
  rw [List.flatMap_def, hsymbols]
  exact Store.flatten_chunks (by decide) u.allSymbols

/-- A project that has all chunks of the upload has its symbols, each of them once. -/
theorem symbols_perm_of_delivered {rootLayerId : ℤ} {symbols : List NewSymbol}
    {rows : List ProjectChunk} (hnodup : (u.symbolChunks.map (·.1)).Nodup)
    (hrows : (rows.map (·.seq)).Nodup)
    (h : SymbolsDelivered u projectId rootLayerId symbols rows)
    (hall : ∀ c ∈ u.symbolChunks, ∃ r ∈ rows, r.seq = c.1) :
    ∃ built, u.allSymbols.mapM (buildSymbol projectId rootLayerId) = .ok built ∧
      symbols.Perm built := by
  let rowsOf (seq : ℤ) : List NewSymbol := (u.chunkSymbols projectId rootLayerId seq).getD []
  -- the records are the chunks, in another order
  have hperm : (rows.map (·.seq)).Perm (u.symbolChunks.map (·.1)) := by
    refine (List.perm_ext_iff_of_nodup hrows hnodup).mpr fun seq => ⟨fun hseq => ?_, fun hseq => ?_⟩
    · obtain ⟨r, hr, rfl⟩ := List.mem_map.mp hseq
      obtain ⟨_, hsome⟩ := h.built r hr
      obtain ⟨c, hfind, -⟩ := chunkSymbols_eq_some.mp hsome
      have hc : c.1 = r.seq := by simpa using List.find?_some hfind
      exact hc ▸ List.mem_map_of_mem (List.mem_of_find?_eq_some hfind)
    · obtain ⟨c, hc, rfl⟩ := List.mem_map.mp hseq
      obtain ⟨r, hr, hseq⟩ := hall c hc
      exact hseq ▸ List.mem_map_of_mem hr
  have hbuilt : ∀ c ∈ u.symbolChunks,
      c.2.symbols.mapM (buildSymbol projectId rootLayerId) = .ok (rowsOf c.1) := by
    intro c hc
    obtain ⟨r, hr, hseq⟩ := hall c hc
    obtain ⟨built, hsome⟩ := h.built r hr
    rw [hseq] at hsome
    obtain ⟨c', hfind, hok⟩ := chunkSymbols_eq_some.mp hsome
    obtain rfl := Option.some.inj ((find?_numbered hnodup hc).symm.trans hfind)
    show _ = Except.ok ((u.chunkSymbols projectId rootLayerId c.1).getD [])
    rw [hsome]
    exact mapM_of_buildSymbolsFrom hok
  refine ⟨u.symbolChunks.flatMap fun c => rowsOf c.1, ?_, ?_⟩
  · rw [← flatMap_symbolChunks u]
    exact Fallible.mapM_flatMap hbuilt
  · have hflat := hperm.flatMap_right rowsOf
    rw [List.flatMap_map, List.flatMap_map] at hflat
    exact h.rows.trans hflat

/-- **Every symbol is uploaded once.**  Whatever is lost and sent again, and even when several
clients send the same upload, a project whose upload is done has the symbols of the upload, each
of them once, and no others. -/
theorem symbols_perm_of_run (hallowed : ∀ s req, allowed s req → Store.Spares u.name s req)
    (hsame : ∀ s req, allowed s req → s.SameUpload u req)
    (hfits : u.symbolChunks.length ≤ 2 ^ 32) (hs : FromUpload u s)
    {sys : System Store Call ServerJob Reply UploadPhase}
    (hrun : UploadRun hashBytes allowed u s sys) (hdone : sys.client = .done projectId) :
    ∃ p ∈ sys.net.server.projects, p.id = projectId ∧ p.projectName = u.name ∧
      p.uploadStatus = .complete ∧
        ∃ rows, u.allSymbols.mapM (buildSymbol projectId p.rootLayerId) = .ok rows ∧
          (sys.net.server.symbolsOf projectId).Perm rows := by
  have hnodup := nodup_symbolSeqs hfits
  have hfrom : FromUpload u sys.net.server := by
    refine stable_of_run hallowed (fun {s req c} h hreq hc => h.handle ?_ hc)
      (fun h hallows hc => h.handle (hsame _ _ hallows) hc) hs.filed hs hrun
    -- the client's chunks are found under their numbers
    cases req with
    | symbolChunk projectId seq chunk =>
      intro p hp hid hname
      exact ⟨chunk, find?_numbered hnodup hreq, rfl⟩
    | _ => exact trivial
  have hdelivered := uploadDelivered_of_run hallowed hs.filed hrun hdone
  obtain ⟨p, hp, rfl, hname, hcomplete⟩ := hdelivered.finished
  refine ⟨p, hp, rfl, hname, hcomplete, ?_⟩
  refine symbols_perm_of_delivered hnodup ?_ (hfrom.delivered p hp hname) ?_
  · refine (hfrom.nodup.filter _).map_on fun c hc c' hc' hseq => ?_
    have hid : c.projectId = p.id := by simpa using (List.mem_filter.mp hc).2
    have hid' : c'.projectId = p.id := by simpa using (List.mem_filter.mp hc').2
    obtain ⟨_, _⟩ := c
    obtain ⟨_, _⟩ := c'
    exact congrArg₂ ProjectChunk.mk (hid.trans hid'.symm) hseq
  · intro c hc
    exact ⟨_, List.mem_filter.mpr ⟨hdelivered.symbolChunks c hc, by simp⟩, rfl⟩

/-- Before the first upload, nothing is there. -/
theorem fromUpload_initial (u : UploadArgs) {canaryRootHash : Bytes}
    (hcanary : canaryRootHash ≠ canaryHash) : FromUpload u (.initial canaryRootHash) where
  filed := .initial hcanary
  nodup := List.nodup_nil
  chunk_lt := List.forall_mem_nil _
  symbol_lt := List.forall_mem_nil _
  delivered _ _ _ := ⟨List.forall_mem_nil _, .refl _⟩

/-- The one symbol of the small upload arrives once, though its chunk is sent twice. -/
theorem symbols_perm_small : ∃ sys,
    UploadRun (fun _ => ['h']) (fun _ _ => False) smallUpload (.initial [0]) sys ∧
      sys.client = .done 1 ∧ ∃ p ∈ sys.net.server.projects, p.id = 1 ∧
        p.projectName = smallUpload.name ∧ p.uploadStatus = .complete ∧
          ∃ rows, smallUpload.allSymbols.mapM (buildSymbol 1 p.rootLayerId) = .ok rows ∧
            (sys.net.server.symbolsOf 1).Perm rows := by
  obtain ⟨sys, hrun, hdone, -⟩ := exists_run_small
  exact ⟨sys, hrun, hdone, symbols_perm_of_run (fun _ _ h => h.elim) (fun _ _ h => h.elim)
    (by decide) (fromUpload_initial smallUpload (by decide)) hrun hdone⟩

end Runs

end Askl
