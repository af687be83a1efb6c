import Askl.Store.LayerCache

/-!
# Layers and changes of the index

A layer is found again by its inputs alone, so whatever changes the persistent rows has to
purge the layers that were computed from them.  Deletions do, and finalising does; a chunk
adds rows to a project that queries already see, and does not.

## Main definitions

* `ReadsCurrent` — results that were read from the rows as they are now.
* `CacheState.computed` — whether a layer holds, or a creator has read, anything.
* `cacheSafe` — no chunk adds rows while there is such a layer or such a creator.
* `CoherenceInv` — what a run of safe actions keeps.

## Main results

* `CoherenceInv.act` — a safe action keeps the invariant.
* `hit_current_of_run` — **in a run of safe actions, no layer is older than the last change**,
  and each holds what it would be populated with now.
* `not_current_of_chunk` — a symbol chunk that makes a cached layer stale.
-/

namespace Askl

open Relation

variable {ρ : Type}

/-! ### The condition -/

/-- Results of the statements of a hash, in order, each read from the rows as they are. -/
structure ReadsCurrent (P : Populate ρ) (st : CacheState ρ) (hash : Bytes)
    (results : List (List ρ)) (readAt : List ℕ) : Prop where
  version : ∀ v ∈ readAt, v = st.version
  length : readAt.length = results.length
  results : results = ((P.statements hash).take results.length).map (· st.store.rows)

/-- Whether a cached layer was computed from any rows, or a creator has read some. -/
def CacheState.computed (st : CacheState ρ) : Bool :=
  (st.store.ephemeralLayers.any fun l =>
    st.commits.any fun r => r.layerId == l.id && !r.readAt.isEmpty) ||
  st.transactions.any fun t => t.created && !t.readAt.isEmpty

/-- Whether an action is not a new chunk with rows, or finds nothing computed. -/
def cacheSafe (st : CacheState ρ) : CacheAction → Bool
  | .request req => !st.store.carriesRows req || !st.computed
  | _ => true

/-- A layer none of whose rows was computed before the last change of the persistent rows, and
which holds what it would be populated with now. -/
def CacheState.Current (P : Populate ρ) (st : CacheState ρ) (l : LayerRow) : Prop :=
  (∀ r ∈ st.commits, r.layerId = l.id → ∀ v ∈ r.readAt, v = st.version) ∧
    st.contents l.id = (P.statements l.hash).map (· st.store.rows)

/-! ### The invariant -/

/-- What a run of safe actions keeps. -/
structure CoherenceInv (P : Populate ρ) (st : CacheState ρ) : Prop where
  cache : CacheInv P st
  creating : ∀ t ∈ st.transactions, t.created = true →
    ReadsCurrent P st t.layer.hash t.results t.readAt
  committed : ∀ l ∈ st.store.ephemeralLayers, ∀ r ∈ st.commits, r.layerId = l.id →
    ReadsCurrent P st l.hash r.results r.readAt

variable {hashBytes : Bytes → Text} {P : Populate ρ} {st st' : CacheState ρ}

/-- Reads stay current as long as the rows and their version stay. -/
theorem ReadsCurrent.congr {hash : Bytes} {results : List (List ρ)} {readAt : List ℕ}
    (h : ReadsCurrent P st hash results readAt) (hrows : st'.store.rows = st.store.rows)
    (hversion : st'.version = st.version) : ReadsCurrent P st' hash results readAt where
  version := hversion ▸ h.version
  length := h.length
  results := hrows ▸ h.results

/-- Reads survive a change of the rows if nothing has been read. -/
theorem ReadsCurrent.install {hash : Bytes} {results : List (List ρ)} {readAt : List ℕ}
    (h : ReadsCurrent P st hash results readAt) {s : Store}
    (hs : s.rows = st.store.rows ∨ readAt = []) :
    ReadsCurrent P (st.install s) hash results readAt := by
  rcases hs with hrows | rfl
  · exact h.congr hrows (by simp [CacheState.install, hrows])
  · obtain rfl : results = [] := List.length_eq_zero_iff.mp h.length.symm
    exact ⟨by simp, rfl, by simp⟩

/-- One more statement reads the rows as they are. -/
theorem ReadsCurrent.snoc {hash : Bytes} {results : List (List ρ)} {readAt : List ℕ}
    (h : ReadsCurrent P st hash results readAt) {f : PersistentRows → List ρ}
    (hf : (P.statements hash)[results.length]? = some f) :
    ReadsCurrent P st hash (results ++ [f st.store.rows]) (readAt ++ [st.version]) where
  version v hv := by
    rcases List.mem_append.mp hv with hv | hv
    · exact h.version v hv
    · exact List.mem_singleton.mp hv
  length := by simp [h.length]
  results := by
    rw [List.length_append, List.length_singleton, List.take_add_one, hf, List.map_append, ← h.results]
    rfl

namespace CoherenceInv

theorem initial (P : Populate ρ) (s : Store) : CoherenceInv P (.initial s) where
  cache := cacheInv_initial P s
  creating := by simp [CacheState.initial]
  committed := by simp [CacheState.initial]

/-- A step that changes neither rows nor layers, and reads nothing. -/
theorem congr (h : CoherenceInv P st) (hcache : CacheInv P st')
    (hrows : st'.store.rows = st.store.rows) (hversion : st'.version = st.version)
    (hcreating : ∀ t ∈ st'.transactions, t.created = true →
      ∃ u ∈ st.transactions, u.created = true ∧ u.layer.hash = t.layer.hash ∧
        u.results = t.results ∧ u.readAt = t.readAt)
    (hlayers : ∀ l ∈ st'.store.ephemeralLayers, l ∈ st.store.ephemeralLayers)
    (hcommits : st'.commits = st.commits) : CoherenceInv P st' where
  cache := hcache
  creating t ht hc := by
    obtain ⟨u, hu, huc, hhash, hresults, hread⟩ := hcreating t ht hc
    rw [← hhash, ← hresults, ← hread]
    exact (h.creating u hu huc).congr hrows hversion
  committed l hl r hr hid :=
    (h.committed l (hlayers l hl) r (hcommits ▸ hr) hid).congr hrows hversion

/-- A creator is replaced by one with the same reads. -/
theorem update (h : CoherenceInv P st) {layerId : ℤ} {t' : EphTransaction ρ}
    (hcache : CacheInv P (st.update layerId t'))
    (hreads : ReadsCurrent P st t'.layer.hash t'.results t'.readAt) :
    CoherenceInv P (st.update layerId t') where
  cache := hcache
  creating u hu huc := by
    rcases mem_update hu with rfl | ⟨hu, -⟩
    · exact hreads.congr rfl rfl
    · exact (h.creating u hu huc).congr rfl rfl
  committed l hl r hr hid := (h.committed l hl r hr hid).congr rfl rfl

/-- A request that is safe: the rows stay, or nothing has been read from them. -/
theorem install (h : CoherenceInv P st) {s : Store} (hcache : CacheInv P (st.install s))
    (hlayers : s.ephemeralLayers = st.store.ephemeralLayers)
    (hsafe : s.rows = st.store.rows ∨ st.computed = false) : CoherenceInv P (st.install s) where
  cache := hcache
  creating t ht hc := by
    refine (h.creating t ht hc).install (hsafe.imp_right fun hnone => ?_)
    simp only [CacheState.computed, Bool.or_eq_false_iff, List.any_eq_false] at hnone
    have := hnone.2 t ht
    simpa [hc] using this
  committed l hl r hr hid := by
    have hl' : l ∈ st.store.ephemeralLayers := hlayers ▸ hl
    refine (h.committed l hl' r hr hid).install (hsafe.imp_right fun hnone => ?_)
    simp only [CacheState.computed, Bool.or_eq_false_iff, List.any_eq_false] at hnone
    have := hnone.1 l hl'
    simp only [List.any_eq_true, not_exists, not_and] at this
    simpa [hid] using this r hr

/-- A creator that commits has read the rows that its layer is then found with. -/
theorem commit (h : CoherenceInv P st) {layerId : ℤ} {t : EphTransaction ρ}
    (ht : st.creating layerId = some t) (hst : st' = { st.drop true layerId with
      store := { st.store with layers := st.store.layers ++ [t.layer] }
      contents := Function.update st.contents layerId t.results
      commits := st.commits ++ [⟨layerId, t.layer.hash, t.results, t.readAt⟩] })
    (hcache : CacheInv P st') : CoherenceInv P st' := by
  subst hst
  obtain ⟨hmem, htc, htid⟩ := mem_of_creating ht
  have his : st.IsCreating layerId := ⟨t, hmem, htc, htid⟩
  refine ⟨hcache, fun u hu huc => (h.creating u (mem_drop.mp hu).1 huc).congr rfl rfl, ?_⟩
  intro l hl r hr hid
  have hl : l ∈ st.store.ephemeralLayers ∨ l = t.layer := by
    simp only [Store.ephemeralLayers, List.mem_filter, List.mem_append,
      List.mem_singleton] at hl ⊢
    grind
  -- a commit of another layer is an old one, a commit of this layer is the new one
  rcases List.mem_append.mp hr with hr | hr
  · rcases hl with hl | rfl
    · exact (h.committed l hl r hr hid).congr rfl rfl
    · exact absurd his (htid ▸ hid ▸ (h.cache.commit_lt r hr).2.1)
  · obtain rfl := List.mem_singleton.mp hr
    rcases hl with hl | rfl
    · obtain ⟨-, r, hr, hrid, -⟩ := h.cache.populated l hl
      have hid : layerId = l.id := hid
      exact absurd his (hid ▸ hrid ▸ (h.cache.commit_lt r hr).2.1)
    · exact (h.creating t hmem htc).congr rfl rfl

/-- **A safe action keeps the invariant.** -/
theorem act (h : CoherenceInv P st) {a : CacheAction} (hsafe : cacheSafe st a = true)
    (hact : st.act hashBytes P a = some st') : CoherenceInv P st' := by
  have hcache : CacheInv P st' := h.cache.act hact
  cases a with
  | request req =>
    obtain ⟨c, hc, hpurged, hlayers, rfl⟩ := request_of_act hact
    refine h.install hcache hlayers ?_
    rcases Bool.or_eq_true_iff.mp hsafe with hcarries | hnone
    · exact Or.inl (Store.rows_handle hc hpurged (by simpa using hcarries))
    · exact Or.inr (by simpa using hnone)
  | lock req =>
    obtain ⟨c, -, -, -, rfl⟩ := lock_of_act hact
    exact h.congr hcache rfl rfl (fun t ht hc => ⟨t, ht, hc, rfl, rfl, rfl⟩) (fun _ hl => hl) rfl
  | purge =>
    obtain ⟨s, hs, rfl⟩ := purge_of_act hact
    obtain ⟨hnone, hlayers⟩ := h.cache.locked s hs
    refine ⟨hcache, fun t ht => ?_, fun l hl => ?_⟩
    · simp [CacheState.install, hnone] at ht
    · simp [CacheState.install, hlayers] at hl
  | openLayer call =>
    obtain ⟨-, ⟨row, -, rfl⟩ | ⟨row, -, rfl⟩⟩ := openLayer_of_act hact
    · refine h.congr hcache rfl rfl (fun t ht hc => ?_) (fun _ hl => hl) rfl
      rcases List.mem_append.mp ht with ht | ht
      · exact ⟨t, ht, hc, rfl, rfl, rfl⟩
      · obtain rfl := List.mem_singleton.mp ht
        cases hc
    · refine ⟨hcache, fun t ht hc => ?_, fun l hl r hr hid => ?_⟩
      · rcases List.mem_append.mp ht with ht | ht
        · exact (h.creating t ht hc).congr rfl rfl
        · obtain rfl := List.mem_singleton.mp ht
          exact ⟨by simp, rfl, by simp⟩
      · exact (h.committed l hl r hr hid).congr rfl rfl
  | statement layerId =>
    obtain ⟨t, f, ht, -, hf, rfl⟩ := statement_of_act hact
    obtain ⟨hmem, htc, -⟩ := mem_of_creating ht
    exact h.update hcache ((h.creating t hmem htc).snoc hf)
  | bodyDone layerId =>
    obtain ⟨t, ht, -, rfl⟩ := bodyDone_of_act hact
    obtain ⟨hmem, htc, -⟩ := mem_of_creating ht
    exact h.update hcache (h.creating t hmem htc)
  | markTruncated layerId =>
    obtain ⟨t, truncated, ht, -, rfl⟩ := markTruncated_of_act hact
    obtain ⟨hmem, htc, -⟩ := mem_of_creating ht
    exact h.update hcache (h.creating t hmem htc)
  | markPopulated layerId =>
    obtain ⟨t, ht, -, rfl⟩ := markPopulated_of_act hact
    obtain ⟨hmem, htc, -⟩ := mem_of_creating ht
    exact h.update hcache (h.creating t hmem htc)
  | commit layerId =>
    obtain ⟨t, ht, -, hst⟩ := commit_of_act hact
    exact h.commit ht hst hcache
  | rollback layerId =>
    obtain ⟨t, -, rfl⟩ := rollback_of_act hact
    exact h.congr hcache rfl rfl (fun t ht hc => ⟨t, (mem_drop.mp ht).1, hc, rfl, rfl, rfl⟩)
      (fun _ hl => hl) rfl
  | returnHit layerId =>
    obtain rfl := Option.some.inj hact
    exact h.congr hcache rfl rfl (fun t ht hc => ⟨t, (mem_drop.mp ht).1, hc, rfl, rfl, rfl⟩)
      (fun _ hl => hl) rfl
  | collect layerIds =>
    obtain ⟨-, -, rfl⟩ := collect_of_act hact
    refine h.congr hcache rfl rfl (fun t ht hc => ⟨t, ht, hc, rfl, rfl, rfl⟩) (fun l hl => ?_) rfl
    simp only [Store.ephemeralLayers, List.mem_filter] at hl ⊢
    exact ⟨hl.1.1, hl.2⟩

/-- A cached layer is current. -/
theorem current (h : CoherenceInv P st) {l : LayerRow} (hl : l ∈ st.store.ephemeralLayers) :
    st.Current P l := by
  refine ⟨fun r hr hid => (h.committed l hl r hr hid).version, ?_⟩
  obtain ⟨-, r, hr, hid, -, hfull, hcontents, -⟩ := h.cache.populated l hl
  have hresults := (h.committed l hl r hr hid).results
  rw [show r.results.length = _ from hfull, List.take_length] at hresults
  rw [hcontents, hresults]

end CoherenceInv

/-! ### Runs -/

/-- **Cache coherence.**  In every run in which no chunk adds rows while a layer holds, or a
creator has read, anything, every layer that a call can find or has found was computed after
the last change of the persistent rows, and holds what it would be populated with now. -/
theorem hit_current_of_run (hashBytes : Bytes → Text) (P : Populate ρ) (s : Store)
    {st : CacheState ρ}
    (hrun : ReflTransGen (CacheStep hashBytes P cacheSafe) (.initial s) st) :
    (∀ l ∈ st.store.ephemeralLayers, st.Current P l) ∧
      ∀ t ∈ st.transactions, t.outcome.created = false → st.Current P t.layer := by
  have hinv : CoherenceInv P st := by
    refine Runs.invariant_of_run (I := CoherenceInv P) ?_ hrun (.initial P s)
    rintro _ _ h ⟨a, hsafe, hact⟩
    exact h.act hsafe hact
  exact ⟨fun l hl => hinv.current hl, fun t ht hc => hinv.current (hinv.cache.found t ht hc)⟩

/-! ### Samples -/

/-- A chunk with one symbol. -/
def symbolChunk : UploadProject := ⟨['p'], ['/', 'p'], [], [⟨1, ['a'], 1, 1⟩]⟩

/-- Upload a project and commit its only symbol. -/
def uploadSymbol : List CacheAction :=
  [.request (.uploadIndex ⟨['p'], ['/', 'p'], [], []⟩ (some 1) (some 0) [9]),
    .request (.symbolChunk 1 0 symbolChunk)]

/-- The symbol is committed before the layer is created: a call finds its id. -/
theorem hit_current_of_upload : ∃ (st : CacheState ℤ) (t : EphTransaction ℤ),
    ReflTransGen (CacheStep (fun _ => []) symbolIds cacheSafe) (.initial (.initial [0])) st ∧
      t ∈ st.transactions ∧ t.outcome = ⟨-1000000, false, false⟩ ∧
      st.store.symbols.map (·.id) = [4294967297] ∧ st.Current symbolIds t.layer := by
  obtain ⟨st, hrun, hobs⟩ := Option.map_eq_some_iff.mp (show
    (actAll (fun _ => []) symbolIds cacheSafe (.initial (.initial [0]))
      (uploadSymbol ++ createSample (-1000000) ++ [.openLayer sampleCall])).map (fun st =>
          (st.transactions.map (·.outcome), st.store.symbols.map (·.id))) =
      some ([⟨-1000000, false, false⟩], [4294967297]) by decide +kernel)
  obtain ⟨houtcomes, hsymbols⟩ := Prod.mk.inj hobs
  obtain ⟨t, ht, hout⟩ := List.mem_map.mp (houtcomes ▸ List.mem_singleton_self _)
  have hsteps := run_of_actAll hrun
  exact ⟨st, t, hsteps, ht, hout, hsymbols,
    (hit_current_of_run (fun _ => []) symbolIds (.initial [0]) hsteps).2 t ht (by simp [hout])⟩

/-- **A stale layer.**  The layer is created before the symbol chunk comes; the chunk purges
nothing, and the next call finds the layer without the symbol. -/
theorem not_current_of_chunk : ∃ (st : CacheState ℤ) (t : EphTransaction ℤ),
    ReflTransGen (CacheStep (fun _ => []) symbolIds fun _ _ => true)
        (.initial (.initial [0])) st ∧ t ∈ st.transactions ∧
      t.outcome = ⟨-1000000, false, false⟩ ∧ st.store.symbols.map (·.id) = [4294967297] ∧
      st.contents t.layer.id = [[]] ∧ ¬st.Current symbolIds t.layer := by
  obtain ⟨st, hrun, hobs⟩ := Option.map_eq_some_iff.mp (show
    (actAll (fun _ => []) symbolIds (fun _ _ => true) (.initial (.initial [0]))
      (createSample (-1000000) ++ uploadSymbol ++ [.openLayer sampleCall])).map (fun st =>
          ((st.transactions.map (·.outcome), st.store.symbols.map (·.id)),
            st.contents (-1000000))) =
      some (([⟨-1000000, false, false⟩], [4294967297]), [[]]) by decide +kernel)
  obtain ⟨hobs, hcontents⟩ := Prod.mk.inj hobs
  obtain ⟨houtcomes, hsymbols⟩ := Prod.mk.inj hobs
  obtain ⟨t, ht, hout⟩ := List.mem_map.mp (houtcomes ▸ List.mem_singleton_self _)
  have hid : t.layer.id = -1000000 := congrArg LayerOutcome.layerId hout
  refine ⟨st, t, run_of_actAll hrun, ht, hout, hsymbols, hid ▸ hcontents, fun hcurrent => ?_⟩
  have hstale := hcurrent.2
  rw [hid, hcontents] at hstale
  simp [symbolIds, Store.rows, hsymbols] at hstale

end Askl
