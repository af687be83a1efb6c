import Askl.Index.EphContext
import Askl.Store.LayerCache

/-!
# The signs of layer ids

Root layers draw their ids from a sequence that ascends from above zero, ephemeral layers
from one that descends from a million below it.  So the sign of an id tells the two apart,
in every state that requests and layer transactions lead to.

## Main definitions

* `Store.loadRootLayers` — `load_root_layers`: the root layers of all projects.
* `Store.PositiveRoots`, `CacheSigns` — the signs, in the tables and in the cache.
* `Served` — what a call of the layer cache returned, in some state of a run.

## Main results

* `Store.PositiveRoots.handle` — every request keeps the roots positive.
* `CacheSigns.act` — **every action keeps the signs.**
* `Served.neg`, `pos_of_loadRootLayers` — what a query is handed has its sign.
-/

namespace Askl

open Relation

/-! ### Roots -/

namespace Store

variable {hashBytes : Bytes → Text} {s s' : Store}

/-- `load_root_layers`: the root layers of all projects but the canary, by id. -/
def loadRootLayers (s : Store) : List RootLayer :=
  ((s.projects.filter fun p => 0 < p.id ∧ s.layers.any (·.id == p.rootLayerId)).map
    fun p => ⟨p.rootLayerId, p.id⟩).insertionSort fun a b => a.id ≤ b.id

/-- The roots of the projects are positive, and so are those still to come. -/
structure PositiveRoots (s : Store) : Prop where
  projects : ∀ p ∈ s.projects, 0 < p.rootLayerId
  next : 0 < s.nextRootLayerId

theorem pos_of_mem_loadRootLayers (h : s.PositiveRoots) {r : RootLayer}
    (hr : r ∈ s.loadRootLayers) : 0 < r.id := by
  rw [loadRootLayers, List.mem_insertionSort] at hr
  obtain ⟨p, hp, rfl⟩ := List.mem_map.mp hr
  exact h.projects p (List.mem_of_mem_filter hp)

theorem nextRootLayerId_insertContents (s : Store) (rows : List NewContentStoreRow) :
    (rows.foldl insertContent s).nextRootLayerId = s.nextRootLayerId := by
  obtain ⟨contentStore, h⟩ := insertContents_eq s rows
  rw [h]

theorem nextRootLayerId_insertSymbols {projectId : ℤ} {symbols : List UploadSymbol}
    (h : s.insertSymbols projectId symbols = .ok s') :
    s'.nextRootLayerId = s.nextRootLayerId := by
  obtain ⟨rows, rfl⟩ := insertSymbols_frame h
  rfl

theorem nextRootLayerId_doUploadObjects {projectId : ℤ} {upload : UploadProject}
    (h : s.doUploadObjects hashBytes projectId upload = .ok s') :
    s'.nextRootLayerId = s.nextRootLayerId := by
  obtain ⟨_, _, inserted, -, -, -, hinserted, _, _, _, _, rfl⟩ := doUploadObjects_stages h
  obtain ⟨objects, nextObjectId, contentStore, hobjects⟩ := insertObjects_frame hinserted
  rw [hobjects]

/-- A new project draws the next root. -/
theorem nextRootLayerId_insertProject {projectName rootPath : Text}
    {symbolTotal objectTotal : Option ℤ} {rootHash : Bytes} {created : ℤ × Store}
    (h : s.insertProject projectName rootPath symbolTotal objectTotal rootHash = .ok created) :
    created.2.nextRootLayerId = s.nextRootLayerId + 1 := by
  unfold insertProject at h
  split at h
  · cases h
  · obtain rfl := Except.ok.inj h
    rfl

theorem nextRootLayerId_deleteProject (s : Store) (projectId : ℤ) :
    (s.deleteProject projectId).store.nextRootLayerId = s.nextRootLayerId := by
  unfold deleteProject
  cases s.findProject projectId <;> rfl

namespace PositiveRoots

theorem initial (canaryRootHash : Bytes) : (Store.initial canaryRootHash).PositiveRoots := by
  refine ⟨fun p hp => ?_, (by decide : (0 : ℤ) < 3)⟩
  obtain rfl := List.mem_singleton.mp hp
  exact (by decide : (0 : ℤ) < 2)

/-- Fewer projects, and the same roots to come. -/
theorem mono (h : s.PositiveRoots) (hprojects : s'.projects ⊆ s.projects)
    (hnext : s'.nextRootLayerId = s.nextRootLayerId) : s'.PositiveRoots :=
  ⟨fun p hp => h.projects p (hprojects hp), hnext ▸ h.next⟩

theorem of_sameUploads (h : s.PositiveRoots) (hsame : SameUploads s s')
    (hnext : s'.nextRootLayerId = s.nextRootLayerId) : s'.PositiveRoots :=
  h.mono (by rw [hsame.projects]; exact List.Subset.refl _) hnext

theorem setStatus (h : s.PositiveRoots) (projectId : ℤ) (status : UploadStatus) :
    (s.setStatus projectId status).PositiveRoots := by
  refine ⟨fun p hp => ?_, h.next⟩
  obtain ⟨q, hq, rfl⟩ := List.mem_map.mp hp
  have hpos := h.projects q hq
  split
  · exact hpos
  · exact hpos

theorem insertProject (h : s.PositiveRoots) {projectName rootPath : Text}
    {symbolTotal objectTotal : Option ℤ} {rootHash : Bytes} {created : ℤ × Store}
    (hc : s.insertProject projectName rootPath symbolTotal objectTotal rootHash = .ok created) :
    created.2.PositiveRoots := by
  have hprojects := (insertProject_ok hc).2.2.1
  refine ⟨fun p hp => ?_, ?_⟩
  · rw [hprojects, List.mem_append, List.mem_singleton] at hp
    rcases hp with hp | rfl
    · exact h.projects p hp
    · exact h.next
  · rw [nextRootLayerId_insertProject hc]
    have := h.next
    omega

/-- A project that is cleared away takes its root with it. -/
theorem cleared (h : s.PositiveRoots) {purged : Bool} (hc : Cleared s s' purged) :
    s'.PositiveRoots := by
  rcases hc with ⟨rfl, -⟩ | ⟨z, -, -, -, rfl⟩
  · exact h
  · exact h.mono List.filter_sublist.subset rfl

/-- **Every request keeps the roots positive.** -/
theorem handle (h : s.PositiveRoots) {req : Request} {c : Committed Response}
    (hhandle : s.handle hashBytes req = .ok c) : c.store.PositiveRoots := by
  cases handle_cases hhandle with
  | resumed | symbolChunkAgain | objectChunkAgain | notFinalized | notMarked => exact h
  | created hcleared hcreated => exact (h.cleared hcleared).insertProject hcreated
  | @symbolChunk projectId seq _ _ hnew hproject hinsert =>
    have hrecord : (s.recordSymbolChunk projectId seq).PositiveRoots := ⟨h.projects, h.next⟩
    exact hrecord.of_sameUploads (sameUploads_insertSymbols hinsert)
      (nextRootLayerId_insertSymbols hinsert)
  | @objectChunk projectId seq _ _ hnew hproject hinsert =>
    have hrecord : (s.recordObjectChunk projectId seq).PositiveRoots := ⟨h.projects, h.next⟩
    exact hrecord.of_sameUploads (sameUploads_doUploadObjects hinsert)
      (nextRootLayerId_doUploadObjects hinsert)
  | @contents _ rows =>
    exact h.of_sameUploads (sameUploads_insertContents s rows) (nextRootLayerId_insertContents s rows)
  | @finalized projectId =>
    exact (h.setStatus projectId .complete).mono (List.Subset.refl _) rfl
  | marked => exact h.setStatus _ .deleting
  | @deleted projectId =>
    refine h.mono ?_ (nextRootLayerId_deleteProject s projectId)
    rw [(deleteProject_eq s projectId).1]
    exact List.filter_sublist.subset

end PositiveRoots

end Store

/-! ### Layers -/

/-- The signs of all layers, of those that a transaction is creating or has found, and of those
still to come. -/
structure CacheSigns {ρ : Type} (st : CacheState ρ) : Prop where
  roots : st.store.PositiveRoots
  locked : ∀ s, st.locked = some s → s.PositiveRoots ∧ s.ephemeralLayers = []
  transactions : ∀ t ∈ st.transactions, t.layer.id < 0
  layers : ∀ l ∈ st.store.ephemeralLayers, l.id < 0
  next : st.nextEphLayerId < 0

namespace CacheSigns

variable {ρ : Type} {hashBytes : Bytes → Text} {P : Populate ρ} {st st' : CacheState ρ}

theorem initial {s : Store} (h : s.PositiveRoots) :
    CacheSigns (CacheState.initial s : CacheState ρ) where
  roots := h.mono (List.Subset.refl _) rfl
  locked := by simp [CacheState.initial]
  transactions := by simp [CacheState.initial]
  layers l hl := by
    have hnone : (CacheState.initial s : CacheState ρ).store.ephemeralLayers = [] :=
      Store.ephemeralLayers_purgeEphCache
    rw [hnone] at hl
    cases hl
  next := (by decide : (-1000000 : ℤ) < 0)

/-- A creator that goes on keeps its layer. -/
theorem update (h : CacheSigns st) {layerId : ℤ} {t t' : EphTransaction ρ}
    (ht : st.creating layerId = some t) (hid : t'.layer.id = t.layer.id) :
    CacheSigns (st.update layerId t') where
  roots := h.roots
  locked := h.locked
  transactions u hu := by
    rcases mem_update hu with rfl | ⟨hu, -⟩
    · rw [hid]
      exact h.transactions t (mem_of_creating ht).1
    · exact h.transactions u hu
  layers := h.layers
  next := h.next

/-- **Every action keeps the signs.** -/
theorem act (h : CacheSigns st) {a : CacheAction} (hact : st.act hashBytes P a = some st') :
    CacheSigns st' := by
  cases a with
  | request req =>
    obtain ⟨c, hc, -, hlayers, rfl⟩ := request_of_act hact
    exact ⟨h.roots.handle hc, h.locked, h.transactions, fun l hl => h.layers l (hlayers ▸ hl),
      h.next⟩
  | lock req =>
    obtain ⟨c, hc, hlayers, -, rfl⟩ := lock_of_act hact
    refine ⟨h.roots, fun s hs => ?_, h.transactions, h.layers, h.next⟩
    obtain rfl := Option.some.inj hs
    exact ⟨h.roots.handle hc, hlayers⟩
  | purge =>
    obtain ⟨s, hs, rfl⟩ := purge_of_act hact
    obtain ⟨hroots, hlayers⟩ := h.locked s hs
    refine ⟨hroots, by simp, h.transactions, fun l hl => ?_, h.next⟩
    have hl' : l ∈ s.ephemeralLayers := hl
    rw [hlayers] at hl'
    cases hl'
  | openLayer call =>
    obtain ⟨-, ⟨row, hrow, rfl⟩ | ⟨row, hid, rfl⟩⟩ := openLayer_of_act hact
    · refine ⟨h.roots, h.locked, fun t ht => ?_, h.layers, h.next⟩
      rcases List.mem_append.mp ht with ht | ht
      · exact h.transactions t ht
      · rw [List.mem_singleton.mp ht]
        exact h.layers row hrow
    · have hnext := h.next
      refine ⟨h.roots, h.locked, fun t ht => ?_, h.layers, ?_⟩
      · rcases List.mem_append.mp ht with ht | ht
        · exact h.transactions t ht
        · rw [List.mem_singleton.mp ht]
          exact lt_of_eq_of_lt hid hnext
      · show st.nextEphLayerId - 1 < 0
        omega
  | statement layerId =>
    obtain ⟨t, f, ht, -, -, rfl⟩ := statement_of_act hact
    exact h.update ht rfl
  | bodyDone layerId =>
    obtain ⟨t, ht, -, rfl⟩ := bodyDone_of_act hact
    exact h.update ht rfl
  | markTruncated layerId =>
    obtain ⟨t, truncated, ht, -, rfl⟩ := markTruncated_of_act hact
    exact h.update ht rfl
  | markPopulated layerId =>
    obtain ⟨t, ht, -, rfl⟩ := markPopulated_of_act hact
    exact h.update ht rfl
  | commit layerId =>
    obtain ⟨t, ht, -, rfl⟩ := commit_of_act hact
    refine ⟨⟨h.roots.projects, h.roots.next⟩, h.locked,
      fun u hu => h.transactions u (mem_drop.mp hu).1, fun l hl => ?_, h.next⟩
    rcases List.mem_append.mp (List.mem_of_mem_filter hl) with hmem | hmem
    · exact h.layers l (List.mem_filter.mpr ⟨hmem, (List.mem_filter.mp hl).2⟩)
    · rw [List.mem_singleton.mp hmem]
      exact h.transactions t (mem_of_creating ht).1
  | rollback layerId =>
    obtain ⟨t, ht, rfl⟩ := rollback_of_act hact
    exact ⟨h.roots, h.locked, fun u hu => h.transactions u (mem_drop.mp hu).1, h.layers, h.next⟩
  | returnHit layerId =>
    obtain rfl := Option.some.inj hact
    exact ⟨h.roots, h.locked, fun u hu => h.transactions u (mem_drop.mp hu).1, h.layers, h.next⟩
  | collect layerIds =>
    obtain ⟨-, -, rfl⟩ := collect_of_act hact
    refine ⟨⟨h.roots.projects, h.roots.next⟩, h.locked, h.transactions, fun l hl => ?_, h.next⟩
    obtain ⟨hmem, hkind⟩ := List.mem_filter.mp hl
    exact h.layers l (List.mem_filter.mpr ⟨List.mem_of_mem_filter hmem, hkind⟩)

end CacheSigns

/-! ### What a query is handed -/

section Run

variable {ρ : Type} {hashBytes : Bytes → Text} {P : Populate ρ} {s : Store}

/-- The states that requests, layer transactions and collections lead to. -/
def CacheState.Reached (hashBytes : Bytes → Text) (P : Populate ρ) (s : Store)
    (st : CacheState ρ) : Prop :=
  ReflTransGen (CacheStep hashBytes P fun _ _ => true) (.initial s) st

theorem CacheState.Reached.signs {st : CacheState ρ} (h : st.Reached hashBytes P s)
    (hs : s.PositiveRoots) : CacheSigns st := by
  refine Runs.invariant_of_run (I := CacheSigns) ?_ h (.initial hs)
  rintro _ _ hst ⟨a, -, hact⟩
  exact hst.act hact

/-- What a call of `with_eph_layer` returned: the outcome of a transaction on the layer of its
hash, in some state of the run. -/
def Served (hashBytes : Bytes → Text) (P : Populate ρ) (s : Store) (call : LayerCall)
    (outcome : LayerOutcome) : Prop :=
  ∃ st : CacheState ρ, st.Reached hashBytes P s ∧
    ∃ t ∈ st.transactions, t.layer.hash = call.hash ∧ t.outcome = outcome

/-- **The layers a query is handed** are ephemeral, by their sign. -/
theorem Served.neg {call : LayerCall} {outcome : LayerOutcome} (hs : s.PositiveRoots)
    (h : Served hashBytes P s call outcome) : outcome.layerId < 0 := by
  obtain ⟨st, hst, t, ht, -, rfl⟩ := h
  exact (hst.signs hs).transactions t ht

/-- **The roots a query is handed** are positive. -/
theorem pos_of_loadRootLayers {st : CacheState ρ} (hs : s.PositiveRoots)
    (hst : st.Reached hashBytes P s) {r : RootLayer} (hr : r ∈ st.store.loadRootLayers) :
    0 < r.id :=
  Store.pos_of_mem_loadRootLayers (hst.signs hs).roots hr

end Run

end Askl
