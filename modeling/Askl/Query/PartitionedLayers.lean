import Askl.Query.ChainIdentity
import Askl.Store.LayerCache
import Mathlib.Data.Int.ConditionallyCompleteOrder

/-!
# Materialising the layers of a statement

The layers of a statement are materialised by one task for each root.  The tasks run
concurrently and complete in any order, and what they return is put in the order of the roots
again.  Each task asks the cache for a base below its root, for a supplement below the last
layer of the root's chain, if there is one, and for an atom below each content layer of its
project.

## Main definitions

* `LayerService` — what the calls of the layer cache return, and when the tasks complete.
* `LayerService.rootLayers` — the task of one root.
* `LayerService.withPartitionedLayers` — `with_partitioned_layers`.
* `CachedLayers.service` — a cache with one row for each key.

## Main results

* `withPartitionedLayers_eq_ok` — **the order in which the tasks complete does not matter.**
* `mem_rootLayers` — a task returns layers of its root, as the cache has handed them out.
* `withPartitionedLayers_service` — with one row for each key, the layers are those of the keys.
-/

namespace Askl

variable {n : ℕ}

/-- `eph_content_layers_grouped`: the visible ephemeral layers that carry objects of a project. -/
def ephContentLayersGrouped (objects : List Object) (visible : List ℤ) (projectId : ℤ) : List ℤ :=
  ((objects.filter fun o => o.layer ∈ visible ∧ o.layer < 0 ∧ o.projectId = projectId).map
    (·.layer)).dedup.insertionSort (· ≤ ·)

/-- What the layer cache does for the statements of an execution: the hash of its keys and the
identity hashes of the roots, which base hashes are of verbs that scan content layers, the rows
of `objects` that a statement finds, what its calls of `with_eph_layer` return, and the order in
which its tasks complete. -/
structure LayerService (n : ℕ) where
  sha256 : Bytes → Hash32
  rootHash : ℤ → Bytes
  scansContent : Hash32 → Bool
  objects : Fin n → List Object
  withEphLayer : Fin n → LayerCall → Except ExecError LayerOutcome
  completed : Fin n → List RootLayer → List RootLayer
  completed_perm : ∀ i roots, (completed i roots).Perm roots

namespace LayerService

variable (S : LayerService n) (i : Fin n) (eph : EphContext) (spec : LayerInputs)

/-- The call for one layer of a root. -/
def call (parentId baseId : Option ℤ) (root : RootLayer) (part : LayerPart) : LayerCall :=
  ⟨parentId, baseId,
    ((⟨S.rootHash root.id, spec.baseHash, spec.supplementExtra, part⟩ : LayerKey).hash S.sha256).val,
    .ephemeral⟩

/-- The content layers of a project that the statement scans. -/
def contentByProject (projectId : ℤ) : List ℤ :=
  if S.scansContent spec.baseHash && eph.hasChain then
    ephContentLayersGrouped (S.objects i) eph.visibleIds projectId
  else []

/-- The task of one root: its base, the supplement of its chain, and the atoms, which are put
between the two. -/
def rootLayers (root : RootLayer) : Except ExecError (List LayerActivation) := do
  let base ← S.withEphLayer i (S.call spec (some root.id) none root .base)
  let supplement ← (eph.chainLast root.id).toList.mapM fun parent =>
    S.withEphLayer i (S.call spec (some parent) (some base.layerId) root (.supplement parent))
  let atoms ← (S.contentByProject i eph spec root.projectId).mapM fun l =>
    S.withEphLayer i (S.call spec (some l) (some base.layerId) root (.perLayer l))
  pure ((base :: (atoms ++ supplement)).map fun o => ⟨root.id, o.layerId, o.truncated⟩)

/-- The root of a group of layers. -/
def groupRoot : List LayerActivation → WithBot ℤ
  | [] => ⊥
  | a :: _ => a.rootId

/-- `with_partitioned_layers`: the groups as their tasks complete, in the order of their roots. -/
def withPartitionedLayers : Except ExecError (List LayerActivation) := do
  let groups ← (S.completed i eph.roots).mapM (S.rootLayers i eph spec)
  pure (groups.insertionSort fun g g' => groupRoot g ≤ groupRoot g').flatten

/-- The layers of the statements of a query, given what their verbs compute as inputs. -/
def layerStore (specs : Fin n → EphContext → LabelResolutions → Except ExecError LayerInputs) :
    LayerStore n := fun i eph resolved =>
  match specs i eph resolved with
  | .error e => .error e
  | .ok spec =>
    if !eph.hasChain && !spec.supplementExtra.isEmpty then .error .layer
    else S.withPartitionedLayers i eph spec

variable {S i eph spec}

/-- A task returns a base at least. -/
theorem rootLayers_ne_nil {root : RootLayer} {group : List LayerActivation}
    (h : S.rootLayers i eph spec root = .ok group) : group ≠ [] := by
  obtain ⟨base, -, h⟩ := Fallible.bind_eq_ok.mp h
  obtain ⟨supplement, -, h⟩ := Fallible.bind_eq_ok.mp h
  obtain ⟨atoms, -, h⟩ := Fallible.bind_eq_ok.mp h
  rw [← Fallible.pure_eq_ok.mp h]
  simp

/-- **A task returns layers of its root**, as calls of the cache have returned them. -/
theorem mem_rootLayers {root : RootLayer} {group : List LayerActivation}
    (h : S.rootLayers i eph spec root = .ok group) {a : LayerActivation} (ha : a ∈ group) :
    a.rootId = root.id ∧ ∃ call outcome, S.withEphLayer i call = .ok outcome ∧
      a.layerId = outcome.layerId := by
  obtain ⟨base, hbase, h⟩ := Fallible.bind_eq_ok.mp h
  obtain ⟨supplement, hsupplement, h⟩ := Fallible.bind_eq_ok.mp h
  obtain ⟨atoms, hatoms, h⟩ := Fallible.bind_eq_ok.mp h
  rw [← Fallible.pure_eq_ok.mp h] at ha
  obtain ⟨o, ho, rfl⟩ := List.mem_map.mp ha
  have hmapped : ∀ {f : ℤ → LayerCall} {l : List ℤ} {os : List LayerOutcome},
      l.mapM (fun x => S.withEphLayer i (f x)) = .ok os → o ∈ os →
        ∃ call, S.withEphLayer i call = .ok o := by
    intro f l os hos ho
    obtain ⟨x, -, hx⟩ := Fallible.exists_of_mem_mapM hos ho
    exact ⟨f x, hx⟩
  refine ⟨rfl, ?_⟩
  suffices hcall : ∃ call, S.withEphLayer i call = .ok o from hcall.imp fun call hc => ⟨o, hc, rfl⟩
  rcases List.mem_cons.mp ho with rfl | ho
  · exact ⟨_, hbase⟩
  · rcases List.mem_append.mp ho with ho | ho
    · exact hmapped hatoms ho
    · exact hmapped hsupplement ho

/-! ### The order of completion -/

theorem groupRoot_eq {root : RootLayer} {group : List LayerActivation}
    (h : S.rootLayers i eph spec root = .ok group) : groupRoot group = (root.id : WithBot ℤ) := by
  cases group with
  | nil => exact absurd rfl (rootLayers_ne_nil h)
  | cons a group =>
    show (a.rootId : WithBot ℤ) = root.id
    rw [(mem_rootLayers h List.mem_cons_self).1]

/-- The groups of sorted roots are sorted. -/
theorem pairwise_groupRoot {roots : List RootLayer} {groups : List (List LayerActivation)}
    (h : roots.mapM (S.rootLayers i eph spec) = .ok groups)
    (hsorted : roots.Pairwise fun a b => a.id < b.id) :
    groups.Pairwise fun g g' => groupRoot g < groupRoot g' := by
  induction Fallible.mapM_eq_ok.mp h with
  | nil => exact List.Pairwise.nil
  | @cons root group roots groups hgroup hrest ih =>
    obtain ⟨hroot, hroots⟩ := List.pairwise_cons.mp hsorted
    refine List.pairwise_cons.mpr ⟨fun g hg => ?_, ih (Fallible.mapM_eq_ok.mpr hrest) hroots⟩
    obtain ⟨r, hr, hgr⟩ := Fallible.exists_of_mem_mapM (Fallible.mapM_eq_ok.mpr hrest) hg
    rw [groupRoot_eq hgroup, groupRoot_eq hgr]
    exact WithBot.coe_lt_coe.mpr (hroot r hr)

/-- **The order in which the tasks complete does not matter**: the layers are those of the
roots, in their order. -/
theorem withPartitionedLayers_eq_ok (hsorted : eph.roots.Pairwise fun a b => a.id < b.id)
    {activations : List LayerActivation} :
    S.withPartitionedLayers i eph spec = .ok activations ↔
      ∃ groups, eph.roots.mapM (S.rootLayers i eph spec) = .ok groups ∧
        groups.flatten = activations := by
  -- sorting the groups of any order of completion puts them in the order of the roots
  have hsort : ∀ {completed groups : List (List LayerActivation)},
      eph.roots.mapM (S.rootLayers i eph spec) = .ok groups → completed.Perm groups →
        completed.insertionSort (fun g g' => groupRoot g ≤ groupRoot g') = groups := by
    intro completed groups hgroups hperm
    have hstrict := pairwise_groupRoot hgroups hsorted
    have hinj : (groups.map groupRoot).Nodup := by
      rw [List.nodup_iff_pairwise_ne, List.pairwise_map]
      exact hstrict.imp fun hlt => hlt.ne
    refine ((List.perm_insertionSort _ completed).trans hperm).eq_of_pairwise ?_
      (List.pairwise_insertionSort _ completed) (hstrict.imp fun hlt => hlt.le)
    intro g g' hg hg' hle hle'
    have hmem : g ∈ groups := hperm.mem_iff.mp ((List.mem_insertionSort _).mp hg)
    exact List.inj_on_of_nodup_map hinj hmem hg' (le_antisymm hle hle')
  constructor
  · intro h
    obtain ⟨completed, hcompleted, h⟩ := Fallible.bind_eq_ok.mp h
    obtain ⟨groups, hgroups, hperm⟩ := Fallible.mapM_perm (S.completed_perm i eph.roots) hcompleted
    refine ⟨groups, hgroups, ?_⟩
    rw [← Fallible.pure_eq_ok.mp h, hsort hgroups hperm]
  · rintro ⟨groups, hgroups, rfl⟩
    obtain ⟨completed, hcompleted, hperm⟩ :=
      Fallible.mapM_perm (S.completed_perm i eph.roots).symm hgroups
    refine Fallible.bind_eq_ok.mpr ⟨completed, hcompleted, Fallible.pure_eq_ok.mpr ?_⟩
    rw [hsort hgroups hperm.symm]

/-- The layers of a statement: some for every root, none for another, each handed out by the
cache. -/
theorem mem_withPartitionedLayers (hsorted : eph.roots.Pairwise fun a b => a.id < b.id)
    {activations : List LayerActivation}
    (h : S.withPartitionedLayers i eph spec = .ok activations) :
    (∀ r ∈ eph.roots, ∃ a ∈ activations, a.rootId = r.id) ∧
      ∀ a ∈ activations, (∃ r ∈ eph.roots, a.rootId = r.id) ∧
        ∃ call outcome, S.withEphLayer i call = .ok outcome ∧ a.layerId = outcome.layerId := by
  obtain ⟨groups, hgroups, rfl⟩ := (withPartitionedLayers_eq_ok hsorted).mp h
  constructor
  · intro r hr
    obtain ⟨group, hgroup, hr⟩ := Fallible.exists_mem_mapM hgroups hr
    obtain ⟨a, ha⟩ := List.exists_mem_of_ne_nil group (rootLayers_ne_nil hr)
    exact ⟨a, List.mem_flatten.mpr ⟨group, hgroup, ha⟩, (mem_rootLayers hr ha).1⟩
  · intro a ha
    obtain ⟨group, hgroup, ha⟩ := List.mem_flatten.mp ha
    obtain ⟨r, hr, hrg⟩ := Fallible.exists_of_mem_mapM hgroups hgroup
    obtain ⟨hroot, hcall⟩ := mem_rootLayers hrg ha
    exact ⟨⟨r, hr, hroot⟩, hcall⟩

end LayerService

/-! ### One row for each key -/

/-- A cache with one row for each key, at the service of every statement. -/
def CachedLayers.service (C : CachedLayers) : LayerService n where
  sha256 := C.sha256
  rootHash := C.rootHash
  scansContent := C.scansContent
  objects := fun _ => C.objects
  withEphLayer := fun _ call => if h : call.hash.length = 32 then
      .ok ⟨C.row ⟨call.hash, h⟩, false, C.truncated (C.row ⟨call.hash, h⟩)⟩
    else .error .layer
  completed := fun _ roots => roots
  completed_perm := fun _ roots => .refl roots

/-- A call is answered with the layer of its key. -/
theorem withEphLayer_service (C : CachedLayers) (i : Fin n) (spec : LayerInputs)
    (parentId baseId : Option ℤ) (root : RootLayer) (part : LayerPart) :
    (C.service : LayerService n).withEphLayer i
        ((C.service : LayerService n).call spec parentId baseId root part) =
      .ok ⟨C.layer (C.key root.id spec part), false,
        C.truncated (C.layer (C.key root.id spec part))⟩ :=
  dif_pos ((C.key root.id spec part).hash C.sha256).2

/-- The task of a root finds the layers of the root's keys. -/
theorem rootLayers_service (C : CachedLayers) (i : Fin n) (eph : EphContext) (spec : LayerInputs)
    (root : RootLayer) : (C.service : LayerService n).rootLayers i eph spec root =
      .ok ((C.keys eph spec root).map fun k => ⟨root.id, C.layer k, C.truncated (C.layer k)⟩) := by
  unfold LayerService.rootLayers
  rw [Fallible.bind_eq_ok]
  refine ⟨_, withEphLayer_service C i spec (some root.id) none root .base, ?_⟩
  rw [Fallible.bind_eq_ok]
  refine ⟨_, Fallible.mapM_of_ok fun parent _ => withEphLayer_service C i spec _ _ root _, ?_⟩
  rw [Fallible.bind_eq_ok]
  refine ⟨_, Fallible.mapM_of_ok fun l _ => withEphLayer_service C i spec _ _ root _, ?_⟩
  rw [Fallible.pure_eq_ok]
  have hcontent : (C.service : LayerService n).contentByProject i eph spec root.projectId =
      C.contentByProject eph spec root.projectId := rfl
  rw [hcontent]
  simp [CachedLayers.keys, CachedLayers.roundParts, Function.comp_def]

/-- **With one row for each key**, the layers of a statement are those of its keys. -/
theorem withPartitionedLayers_service (C : CachedLayers) (i : Fin n) {eph : EphContext}
    (hsorted : eph.roots.Pairwise fun a b => a.id < b.id) (spec : LayerInputs) :
    (C.service : LayerService n).withPartitionedLayers i eph spec =
      .ok (C.withPartitionedLayers eph spec) := by
  rw [LayerService.withPartitionedLayers_eq_ok hsorted]
  refine ⟨eph.roots.map fun r => (C.keys eph spec r).map fun k =>
    ⟨r.id, C.layer k, C.truncated (C.layer k)⟩, ?_, rfl⟩
  exact Fallible.mapM_of_ok fun r _ => rootLayers_service C i eph spec r

end Askl
