import Askl.Query.Loc
import Mathlib.Data.Set.Function
import Mathlib.Logic.Relation

/-!
# Locations and the layer cache

A base layer of `loc` is cached for each root, while whether a file matches and has the line
is decided over all roots, when a base is populated.  So a base that is cached holds what its
root has to contribute, but a statement all of whose bases are cached is never refused.

## Main definitions

* `StreamDigest`, `StreamDigest.Hashes` — a digest without collisions, and keys it has hashed.
* `TableStep` — a call for a layer, by a `loc` or by another verb, or a collection.
* `LocLayer` — what a layer with a key of `loc` holds.
* `locOutcome` — how a statement with one `loc` ends.

## Main results

* `sound_of_run` — **every layer that runs lead to holds what its key says.**
* `locOutcome_eq` — the outcome, root by root.
* `locOutcome_eq_cold_iff` — **when the cache makes no difference.**
-/

namespace Askl

open Fallible Relation Utf8

/-! ### Digests -/

/-- A digest, and streams that have been hashed, no two of which collide. -/
structure StreamDigest where
  sha256 : Bytes → Hash32
  hashed : Set Bytes
  injOn : Set.InjOn sha256 hashed

/-- The streams that a key comes from have been hashed: that of its base hash, and its own. -/
structure StreamDigest.Hashes (D : StreamDigest) (stream : Bytes) (k : LayerKey) : Prop where
  baseHash : k.baseHash = D.sha256 stream
  stream : stream ∈ D.hashed
  salted : rootSaltedInput k.rootHash k.baseHash ∈ D.hashed
  input : k.input D.sha256 ∈ D.hashed
  fits : k.part.Fits

/-- A key tells which layer it is for. -/
theorem StreamDigest.Hashes.eq_of_hash {D : StreamDigest} {stream stream' : Bytes} {k k' : LayerKey}
    (h : D.Hashes stream k) (h' : D.Hashes stream' k')
    (hhash : k.hash D.sha256 = k'.hash D.sha256) :
    k.part = k'.part ∧ k.rootHash = k'.rootHash ∧ stream = stream' := by
  have hinput := D.injOn h.input h'.input hhash
  have hsame := LayerKey.same_of_input h.fits h'.fits hinput
  obtain ⟨hroot, hbase⟩ := rootSaltedInput_inj (D.injOn h.salted h'.salted hsame.salted)
  rw [h.baseHash, h'.baseHash] at hbase
  exact ⟨hsame.part, hroot, D.injOn h.stream h'.stream hbase⟩

/-! ### The cache of earlier statements -/

/-- The populate of a part of a root's layers. -/
inductive PopulateSpec.Populates {ε : Type} (spec : PopulateSpec LayerTxn ε) (root : RootLayer) :
    LayerPart → LayerPopulate LayerTxn ε → Prop where
  | base : Populates spec root .base (spec.basePopulate root)
  | supplement (parentId : ℤ) (base : BaseLayerRef) :
      Populates spec root (.supplement parentId) (spec.supplementPopulate root base)
  | perLayer {populate : RootLayer → ℤ → BaseLayerRef → LayerPopulate LayerTxn ε}
      (h : spec.perLayerPopulate = some populate) (layerId : ℤ) (base : BaseLayerRef) :
      Populates spec root (.perLayer layerId) (populate root layerId base)

section Cache

variable (D : StreamDigest) (db : LocDatabase)

/-- The key of a layer of a location. -/
def locKey (sel : LocSelector) (root : RootLayer) (part : LayerPart) : LayerKey :=
  ⟨db.store.rootHash root.id, D.sha256 (locStream sel), [], part⟩

/-- One step of the cache, over unchanged tables: a call for a layer, by a `loc` or by another
verb, under any set of visible roots, or a collection. -/
inductive TableStep : LayerTable → LayerTable → Prop where
  | loc (T : LayerTable) (sel : LocSelector) (eph : EphContext) (root : RootLayer)
      (part : LayerPart) (body : LayerPopulate LayerTxn LocError)
      (hroots : eph.roots ⊆ db.store.loadRootLayers) (hroot : root ∈ eph.roots)
      (hbody : (locSpec db sel D.sha256 eph).Populates root part body)
      (hhashes : D.Hashes (locStream sel) (locKey D db sel root part)) :
      TableStep T (T.withEphLayer ((locKey D db sel root part).hash D.sha256) body).2
  | other {ε : Type} (T : LayerTable) (stream : Bytes) (key : LayerKey)
      (body : LayerPopulate LayerTxn ε) (hstream : ¬IsLocStream stream)
      (hhashes : D.Hashes stream key) :
      TableStep T (T.withEphLayer (key.hash D.sha256) body).2
  | collect (T : LayerTable) (keep : PopulatedLayer → Bool) :
      TableStep T { T with layers := T.layers.filter keep }

/-- What a root contributes to a location. -/
def locShare (sel : LocSelector) (root : RootLayer) : Except LocError (List SelectedRow) :=
  shareRows db sel (ownMatches db sel root) root.projectId

/-- A layer with a key of a location holds what the root contributes, or nothing. -/
structure LocLayer (l : PopulatedLayer) : Prop where
  base : ∀ sel, ∀ root ∈ db.store.loadRootLayers,
    D.Hashes (locStream sel) (locKey D db sel root .base) →
      l.hash = (locKey D db sel root .base).hash D.sha256 →
        l.truncated = false ∧ locShare db sel root = .ok l.rows
  supplement : ∀ sel, ∀ root ∈ db.store.loadRootLayers, ∀ parentId,
    D.Hashes (locStream sel) (locKey D db sel root (.supplement parentId)) →
      l.hash = (locKey D db sel root (.supplement parentId)).hash D.sha256 →
        l.truncated = false ∧ l.rows = []

variable {D db}

/-- A base is populated with what its root contributes, if the resolution succeeds. -/
theorem basePopulate_map (hfiled : db.store.Filed) (sel : LocSelector) {eph : EphContext}
    (hroots : eph.roots ⊆ db.store.loadRootLayers) {root : RootLayer} (hroot : root ∈ eph.roots)
    {txn : LayerTxn} (hsymbols : txn.symbols = []) (hinstances : txn.instances = []) :
    ((locSpec db sel D.sha256 eph).basePopulate root txn).map
        (fun r => (r.1, joinedRows r.2.symbols r.2.instances)) =
      resolve db sel eph.rootIds false >>= fun _ => (locShare db sel root).map fun rows =>
        (false, rows) := by
  show Except.map _ (resolve db sel eph.rootIds false >>= fun fileMatches =>
    buildInstances db sel fileMatches root txn >>= fun txn => pure (false, txn)) = _
  cases hresolve : resolve db sel eph.rootIds false with
  | error e => rfl
  | ok fileMatches =>
    have hmap : (buildInstances db sel fileMatches root txn).map
        (fun txn => joinedRows txn.symbols txn.instances) = _ :=
      buildInstances_map fileMatches root hsymbols hinstances
    rw [ownMatches_of_resolve hfiled (hroots hroot) (List.mem_map_of_mem hroot) hresolve] at hmap
    show Except.map _ (buildInstances db sel fileMatches root txn >>= fun txn =>
      pure (false, txn)) = (locShare db sel root).map _
    rw [locShare, ← hmap]
    cases buildInstances db sel fileMatches root txn <;> rfl

/-- A base that is populated. -/
theorem basePopulate_eq_ok (hfiled : db.store.Filed) {sel : LocSelector} {eph : EphContext}
    (hroots : eph.roots ⊆ db.store.loadRootLayers) {root : RootLayer} (hroot : root ∈ eph.roots)
    {txn txn' : LayerTxn} {truncated : Bool} (hsymbols : txn.symbols = [])
    (hinstances : txn.instances = [])
    (h : (locSpec db sel D.sha256 eph).basePopulate root txn = .ok (truncated, txn')) :
    truncated = false ∧ (∃ fileMatches, resolve db sel eph.rootIds false = .ok fileMatches) ∧
      locShare db sel root = .ok (joinedRows txn'.symbols txn'.instances) := by
  have hmap := basePopulate_map (D := D) hfiled sel hroots hroot hsymbols hinstances
  rw [h] at hmap
  obtain ⟨fileMatches, hresolve, hshare⟩ := bind_eq_ok.mp hmap.symm
  obtain ⟨rows, hrows, heq⟩ := map_eq_ok.mp hshare
  obtain ⟨rfl, rfl⟩ := Prod.mk.inj heq
  exact ⟨rfl, ⟨fileMatches, hresolve⟩, hrows⟩

/-! ### Every layer holds what its key says -/

/-- A populate of a location makes what its key says. -/
theorem makesGood_loc (hfiled : db.store.Filed) {sel : LocSelector} {eph : EphContext}
    (hroots : eph.roots ⊆ db.store.loadRootLayers) {root : RootLayer} (hroot : root ∈ eph.roots)
    {part : LayerPart} {body : LayerPopulate LayerTxn LocError}
    (hbody : (locSpec db sel D.sha256 eph).Populates root part body)
    (hhashes : D.Hashes (locStream sel) (locKey D db sel root part)) :
    LayerTable.MakesGood (LocLayer D db) ((locKey D db sel root part).hash D.sha256) body := by
  intro txn truncated txn' hsymbols hinstances hrun id
  refine ⟨?_, ?_⟩
  · intro sel' root' hroot' hhashes' hhash
    obtain ⟨hpart, hrootHash, hstream⟩ := hhashes.eq_of_hash hhashes' hhash
    obtain rfl := locStream_inj hstream
    obtain rfl := hfiled.rootHash_inj (hroots hroot) hroot' hrootHash
    obtain rfl : part = .base := hpart
    cases hbody
    obtain ⟨htruncated, -, hshare⟩ := basePopulate_eq_ok hfiled hroots hroot hsymbols hinstances hrun
    exact ⟨htruncated, hshare⟩
  · intro sel' root' hroot' parentId hhashes' hhash
    obtain ⟨hpart, -, -⟩ := hhashes.eq_of_hash hhashes' hhash
    obtain rfl : part = .supplement parentId := hpart
    cases hbody
    obtain ⟨rfl, rfl⟩ := Prod.mk.inj (Except.ok.inj hrun)
    refine ⟨rfl, ?_⟩
    show joinedRows txn.symbols txn.instances = []
    rw [hsymbols, hinstances]
    rfl

/-- A populate of another verb makes no layer with a key of a location. -/
theorem makesGood_other {ε : Type} {stream : Bytes} {key : LayerKey}
    {body : LayerPopulate LayerTxn ε} (hstream : ¬IsLocStream stream)
    (hhashes : D.Hashes stream key) :
    LayerTable.MakesGood (LocLayer D db) (key.hash D.sha256) body := by
  intro txn truncated txn' _ _ _ id
  refine ⟨?_, ?_⟩
  · intro sel' root' _ hhashes' hhash
    obtain ⟨-, -, rfl⟩ := hhashes.eq_of_hash hhashes' hhash
    exact absurd (isLocStream_locStream sel') hstream
  · intro sel' root' _ parentId hhashes' hhash
    obtain ⟨-, -, rfl⟩ := hhashes.eq_of_hash hhashes' hhash
    exact absurd (isLocStream_locStream sel') hstream

/-- A step keeps layers with what their keys say. -/
theorem TableStep.sound (hfiled : db.store.Filed) {T T' : LayerTable} (hT : T.Sound (LocLayer D db))
    (hstep : TableStep D db T T') : T'.Sound (LocLayer D db) := by
  cases hstep with
  | loc _ sel eph root part body hroots hroot hbody hhashes =>
    exact hT.withEphLayer (makesGood_loc hfiled hroots hroot hbody hhashes)
  | other _ stream key body hstream hhashes =>
    exact hT.withEphLayer (makesGood_other hstream hhashes)
  | collect _ keep => exact hT.collect keep

theorem sound_of_empty {T : LayerTable} (h : T.layers = []) : T.Sound (LocLayer D db) where
  ids := by
    rw [h]
    exact List.nodup_nil
  fresh := by
    rw [h]
    exact List.forall_mem_nil _
  good := by
    rw [h]
    exact List.forall_mem_nil _

/-- **Every layer that runs lead to holds what its key says.** -/
theorem sound_of_run (hfiled : db.store.Filed) {T T' : LayerTable} (hempty : T.layers = [])
    (hrun : ReflTransGen (TableStep D db) T T') : T'.Sound (LocLayer D db) :=
  Runs.invariant_of_run (I := fun T => T.Sound (LocLayer D db))
    (fun hT hstep => hstep.sound hfiled hT) hrun (sound_of_empty hempty)

/-! ### A statement -/

variable (D db)

/-- The content layers of a project. -/
def locContent (eph : EphContext) (projectId : ℤ) : List ℤ :=
  if eph.hasChain then
    ephContentLayersGrouped (db.store.objects.map fun o =>
      ⟨o.id, o.row.projectId, o.row.filesystemPath, o.row.layer⟩) eph.visibleIds projectId
  else []

/-- The layers of a statement with one `loc`. -/
def locLayers (sel : LocSelector) (eph : EphContext) (T : LayerTable) (completed : List RootLayer) :
    Except LocError (List LayerActivation) × LayerTable :=
  T.withPartitionedLayers D.sha256 db.store.rootHash (locContent db eph) eph
    (locSpec db sel D.sha256 eph) completed

/-- How the statement ends: with an error, or with the rows that it selects and whether they
have been cut off. -/
def locOutcome (sel : LocSelector) (eph : EphContext) (T : LayerTable)
    (completed : List RootLayer) : Except LocError (List SelectedRow × Bool) :=
  (locLayers D db sel eph T completed).1.map fun activations =>
    ((locLayers D db sel eph T completed).2.selectedRows activations,
      activations.any (·.truncated))

/-- The keys of a statement have been hashed. -/
structure LocHashed (sel : LocSelector) (eph : EphContext) : Prop where
  base : ∀ root ∈ eph.roots, D.Hashes (locStream sel) (locKey D db sel root .base)
  supplement : ∀ root ∈ eph.roots, ∀ parentId ∈ eph.chainLast root.id,
    D.Hashes (locStream sel) (locKey D db sel root (.supplement parentId))

/-- The base layer of a location is cached for a root. -/
def BaseCached (sel : LocSelector) (T : LayerTable) (root : RootLayer) : Prop :=
  (T.find ((locKey D db sel root .base).hash D.sha256)).isSome = true

instance (sel : LocSelector) (T : LayerTable) (root : RootLayer) :
    Decidable (BaseCached D db sel T root) :=
  inferInstanceAs (Decidable (_ = true))

/-- What the task of a root comes to: a base that is cached does not resolve again. -/
def taskRows (sel : LocSelector) (eph : EphContext) (T : LayerTable) (root : RootLayer) :
    Except LocError (List SelectedRow) :=
  if BaseCached D db sel T root then locShare db sel root
  else resolve db sel eph.rootIds false >>= fun _ => locShare db sel root

variable {D db}

/-- No object is on an ephemeral layer. -/
theorem locContent_eq_nil (hfiled : db.store.Filed) (eph : EphContext) (projectId : ℤ) :
    locContent db eph projectId = [] := by
  unfold locContent
  split
  · have hfilter : (db.store.objects.map fun o =>
        (⟨o.id, o.row.projectId, o.row.filesystemPath, o.row.layer⟩ : Object)).filter (fun o =>
          o.layer ∈ eph.visibleIds ∧ o.layer < 0 ∧ o.projectId = projectId) = [] := by
      rw [List.filter_eq_nil_iff]
      intro o ho
      obtain ⟨r, hr, rfl⟩ := List.mem_map.mp ho
      have hpos := hfiled.layer_pos hr
      rw [decide_eq_true_eq]
      rintro ⟨-, hneg, -⟩
      dsimp only at hneg
      omega
    rw [ephContentLayersGrouped, hfilter]
    rfl
  · rfl

/-! ### The task of a root -/

section Task

variable {sel : LocSelector} {eph : EphContext} {T : LayerTable} {root : RootLayer}

/-- The call for a base comes to what the root contributes, or to the error of the
resolution. -/
theorem agree_base (hfiled : db.store.Filed) (hroots : eph.roots ⊆ db.store.loadRootLayers)
    (hhashed : LocHashed D db sel eph) (hT : T.Sound (LocLayer D db)) (hroot : root ∈ eph.roots) :
    Agree (fun rows o => o.truncated = false ∧
        ∃ l ∈ (T.withEphLayer ((locKey D db sel root .base).hash D.sha256)
          ((locSpec db sel D.sha256 eph).basePopulate root)).2.layers,
            l.id = o.layerId ∧ l.rows = rows)
      (taskRows D db sel eph T root)
      (T.withEphLayer ((locKey D db sel root .base).hash D.sha256)
        ((locSpec db sel D.sha256 eph).basePopulate root)).1 := by
  cases hfind : T.find ((locKey D db sel root .base).hash D.sha256) with
  | some l =>
    obtain ⟨hl, hhash⟩ := LayerTable.mem_of_find hfind
    obtain ⟨htruncated, hshare⟩ :=
      (hT.good l hl).base sel root (hroots hroot) (hhashed.base root hroot) hhash
    have hcached : BaseCached D db sel T root := by rw [BaseCached, hfind]; rfl
    rw [LayerTable.withEphLayer_hit hfind, taskRows, if_pos hcached, hshare]
    exact .ok ⟨htruncated, l, hl, rfl, rfl⟩
  | none =>
    have hcached : ¬BaseCached D db sel T root := by rw [BaseCached, hfind]; simp
    have hmap : ((locSpec db sel D.sha256 eph).basePopulate root T.openTxn).map
        (fun r => (r.1, joinedRows r.2.symbols r.2.instances)) = _ :=
      basePopulate_map hfiled sel hroots hroot rfl rfl
    rw [taskRows, if_neg hcached]
    cases hrun : (locSpec db sel D.sha256 eph).basePopulate root T.openTxn with
    | error e =>
      rw [LayerTable.withEphLayer_error hfind hrun]
      rw [hrun] at hmap
      cases hresolve : resolve db sel eph.rootIds false with
      | error e' =>
        rw [hresolve] at hmap
        obtain rfl : e = e' := Except.error.inj hmap
        exact .error e
      | ok fileMatches =>
        rw [hresolve] at hmap
        cases hshare : locShare db sel root with
        | error e' =>
          rw [hshare] at hmap
          obtain rfl : e = e' := Except.error.inj hmap
          exact .error e
        | ok rows =>
          rw [hshare] at hmap
          cases hmap
    | ok r =>
      obtain ⟨truncated, txn⟩ := r
      obtain ⟨htruncated, ⟨fileMatches, hresolve⟩, hshare⟩ :=
        basePopulate_eq_ok hfiled hroots hroot rfl rfl hrun
      rw [LayerTable.withEphLayer_created hfind hrun, hresolve]
      show Agree _ (locShare db sel root) _
      rw [hshare]
      exact .ok ⟨htruncated, _, List.mem_append_right _ List.mem_cons_self, rfl, rfl⟩

/-- The keys of bases of other roots are other keys. -/
theorem LocHashed.base_ne (hhashed : LocHashed D db sel eph) (hfiled : db.store.Filed)
    (hroots : eph.roots ⊆ db.store.loadRootLayers) {root' : RootLayer} (hroot : root ∈ eph.roots)
    (hroot' : root' ∈ eph.roots) (hne : root' ≠ root) :
    (locKey D db sel root' .base).hash D.sha256 ≠ (locKey D db sel root .base).hash D.sha256 := by
  intro heq
  obtain ⟨-, hrootHash, -⟩ :=
    (hhashed.base root' hroot').eq_of_hash (hhashed.base root hroot) heq
  exact hne (hfiled.rootHash_inj (hroots hroot') (hroots hroot) hrootHash)

/-- The key of a base is not that of a supplement. -/
theorem LocHashed.base_ne_supplement (hhashed : LocHashed D db sel eph) {root' : RootLayer}
    (hroot : root ∈ eph.roots) (hroot' : root' ∈ eph.roots) {parentId : ℤ}
    (hparent : parentId ∈ eph.chainLast root.id) :
    (locKey D db sel root' .base).hash D.sha256 ≠
      (locKey D db sel root (.supplement parentId)).hash D.sha256 := by
  intro heq
  obtain ⟨hpart, -, -⟩ := (hhashed.base root' hroot').eq_of_hash
    (hhashed.supplement root hroot parentId hparent) heq
  cases hpart

/-- The call for a supplement, if there is one: its layer is empty. -/
theorem exists_supplement (hfiled : db.store.Filed) (hroots : eph.roots ⊆ db.store.loadRootLayers)
    (hhashed : LocHashed D db sel eph) (hT : T.Sound (LocLayer D db)) (hroot : root ∈ eph.roots)
    (base : BaseLayerRef) :
    ∃ os T', T.withEphLayers (LayerTable.supplementCalls D.sha256 db.store.rootHash eph
        (locSpec db sel D.sha256 eph) root base) = (.ok os, T') ∧
      T'.Sound (LocLayer D db) ∧ T.layers ⊆ T'.layers ∧
      (∀ root' ∈ eph.roots, BaseCached D db sel T' root' ↔ BaseCached D db sel T root') ∧
      ∃ ls : List PopulatedLayer, (∀ l ∈ ls, l ∈ T'.layers) ∧ os.map (·.layerId) = ls.map (·.id) ∧
        ls.flatMap (·.rows) = [] ∧ ∀ o ∈ os, o.truncated = false := by
  rw [LayerTable.supplementCalls]
  cases hchain : eph.chainLast root.id with
  | none =>
    exact ⟨[], T, rfl, hT, List.Subset.refl _, fun _ _ => Iff.rfl, [], List.forall_mem_nil _, rfl,
      rfl, List.forall_mem_nil _⟩
  | some parentId =>
    have hhashes := hhashed.supplement root hroot parentId hchain
    have hgood := makesGood_loc hfiled hroots hroot (.supplement parentId base) hhashes
    have hsound := hT.withEphLayer hgood
    have hfind : ∀ root' ∈ eph.roots, BaseCached D db sel (T.withEphLayer
        ((locKey D db sel root (.supplement parentId)).hash D.sha256)
        ((locSpec db sel D.sha256 eph).supplementPopulate root base)).2 root' ↔
          BaseCached D db sel T root' := by
      intro root' hroot'
      rw [BaseCached, BaseCached, LayerTable.find_withEphLayer
        (hhashed.base_ne_supplement hroot hroot' hchain)]
    obtain ⟨o, ho⟩ : ∃ o, (T.withEphLayer
        ((locKey D db sel root (.supplement parentId)).hash D.sha256)
        ((locSpec db sel D.sha256 eph).supplementPopulate root base)).1 = .ok o := by
      cases hsome : T.find ((locKey D db sel root (.supplement parentId)).hash D.sha256) with
      | some l => exact ⟨_, congrArg Prod.fst (LayerTable.withEphLayer_hit hsome)⟩
      | none => exact ⟨_, congrArg Prod.fst (LayerTable.withEphLayer_created hsome rfl)⟩
    obtain ⟨l, hl, hhash, hid, htruncated⟩ := LayerTable.layer_of_ok ho
    obtain ⟨hfalse, hrows⟩ :=
      (hsound.good l hl).supplement sel root (hroots hroot) parentId hhashes hhash
    refine ⟨[o], _, ?_, hsound, LayerTable.subset_withEphLayer _ _ _, hfind, [l], ?_, ?_, ?_, ?_⟩
    · exact LayerTable.withEphLayers_singleton ho
    · simpa using hl
    · rw [List.map_singleton, List.map_singleton, hid]
    · rw [List.flatMap_singleton, hrows]
    · simpa using htruncated ▸ hfalse

/-- The layers of a root, and what they hold together. -/
structure IsTask (T : LayerTable) (task : WithBot ℤ × List SelectedRow)
    (activations : List LayerActivation) : Prop where
  root : LayerService.groupRoot activations = task.1
  truncated : ∀ a ∈ activations, a.truncated = false
  rows : ∃ ls : List PopulatedLayer, (∀ l ∈ ls, l ∈ T.layers) ∧
    activations.map (·.layerId) = ls.map (·.id) ∧ ls.flatMap (·.rows) = task.2

theorem IsTask.mono {T' : LayerTable} {task : WithBot ℤ × List SelectedRow}
    {activations : List LayerActivation} (h : IsTask T task activations)
    (hsubset : T.layers ⊆ T'.layers) : IsTask T' task activations := by
  obtain ⟨hroot, htruncated, ls, hls, hids, hrows⟩ := h
  exact ⟨hroot, htruncated, ls, fun l hl => hsubset (hls l hl), hids, hrows⟩

/-- The rows of a task are read by the ids of its layers. -/
theorem IsTask.selectedRows {task : WithBot ℤ × List SelectedRow}
    {activations : List LayerActivation} (h : IsTask T task activations)
    (hT : T.Sound (LocLayer D db)) : T.selectedRows activations = task.2 := by
  obtain ⟨ls, hls, hids, hrows⟩ := h.rows
  have hread : ls.map (fun l => T.rowsOf l.id) = ls.map (·.rows) :=
    List.map_congr_left fun l hl => hT.rowsOf_eq (hls l hl)
  calc T.selectedRows activations
      = ((activations.map (·.layerId)).map T.rowsOf).flatten := by
        rw [LayerTable.selectedRows, List.flatMap_def, List.map_map]
        rfl
    _ = (ls.map (fun l => T.rowsOf l.id)).flatten := by
        rw [hids, List.map_map]
        rfl
    _ = task.2 := by rw [hread, ← List.flatMap_def, hrows]

/-- **The task of a root**: it comes to what the root contributes or to the error of the
resolution, and leaves the bases of the other roots. -/
theorem rootTask_loc (hfiled : db.store.Filed) (hroots : eph.roots ⊆ db.store.loadRootLayers)
    (hhashed : LocHashed D db sel eph) (hT : T.Sound (LocLayer D db)) (hroot : root ∈ eph.roots)
    {task : Except LocError (List LayerActivation) × LayerTable}
    (htask : T.rootTask D.sha256 db.store.rootHash (locContent db eph) eph
      (locSpec db sel D.sha256 eph) root = task) :
    Agree (IsTask task.2) ((taskRows D db sel eph T root).map fun rows => (↑root.id, rows)) task.1 ∧
      task.2.Sound (LocLayer D db) ∧ T.layers ⊆ task.2.layers ∧
      ∀ root' ∈ eph.roots, root' ≠ root →
        (BaseCached D db sel task.2 root' ↔ BaseCached D db sel T root') := by
  have hbase := agree_base hfiled hroots hhashed hT hroot
  have hsound := hT.withEphLayer (makesGood_loc hfiled hroots hroot .base (hhashed.base root hroot))
  have hsubset := T.subset_withEphLayer ((locKey D db sel root .base).hash D.sha256)
    ((locSpec db sel D.sha256 eph).basePopulate root)
  have hfind : ∀ root' ∈ eph.roots, root' ≠ root →
      (BaseCached D db sel (T.withEphLayer ((locKey D db sel root .base).hash D.sha256)
        ((locSpec db sel D.sha256 eph).basePopulate root)).2 root' ↔
          BaseCached D db sel T root') := by
    intro root' hroot' hne
    rw [BaseCached, BaseCached,
      LayerTable.find_withEphLayer (hhashed.base_ne hfiled hroots hroot hroot' hne)]
  unfold LayerTable.rootTask at htask
  have hkey : LayerTable.layerHash D.sha256 db.store.rootHash (locSpec db sel D.sha256 eph) root
      .base = (locKey D db sel root .base).hash D.sha256 := rfl
  rw [hkey] at htask
  obtain ⟨call, hcall⟩ : ∃ call, T.withEphLayer ((locKey D db sel root .base).hash D.sha256)
    ((locSpec db sel D.sha256 eph).basePopulate root) = call := ⟨_, rfl⟩
  rw [hcall] at htask hbase hsound hsubset hfind
  obtain ⟨res, T₁⟩ := call
  cases hrows : taskRows D db sel eph T root with
  | error e =>
    rw [hrows] at hbase
    cases hbase
    subst htask
    exact ⟨.error e, hsound, hsubset, hfind⟩
  | ok rows =>
    rw [hrows] at hbase
    cases hbase with
    | @ok _ o h =>
      obtain ⟨htruncated, l, hl, hid, hlrows⟩ := h
      obtain ⟨os, T₂, hsupplement, hsound₂, hsubset₂, hcached, ls, hls, hids, hnil, hos⟩ :=
        exists_supplement hfiled hroots hhashed hsound hroot
          ⟨o.layerId, (locKey D db sel root .base).hash D.sha256⟩
      have hatoms : LayerTable.atomCalls D.sha256 db.store.rootHash (locContent db eph)
          (locSpec db sel D.sha256 eph) root
            ⟨o.layerId, (locKey D db sel root .base).hash D.sha256⟩ = [] := by
        rw [LayerTable.atomCalls, List.flatMap_eq_nil_iff]
        intro populate _
        rw [locContent_eq_nil hfiled, List.map_nil]
      simp only [hsupplement, hatoms, LayerTable.withEphLayers] at htask
      subst htask
      refine ⟨.ok ⟨rfl, ?_, l :: ls, ?_, ?_, ?_⟩, hsound₂, List.Subset.trans hsubset hsubset₂,
        fun root' hroot' hne => (hcached root' hroot').trans (hfind root' hroot' hne)⟩
      · intro a ha
        obtain ⟨o', ho', rfl⟩ := List.mem_map.mp ha
        rcases List.mem_cons.mp ho' with rfl | ho'
        · exact htruncated
        · exact hos o' ho'
      · intro k hk
        rcases List.mem_cons.mp hk with rfl | hk
        · exact hsubset₂ hl
        · exact hls k hk
      · rw [List.map_map, List.nil_append, List.map_cons, List.map_cons, hid]
        exact congrArg _ hids
      · rw [List.flatMap_cons, hnil, List.append_nil, hlrows]

/-- **The tasks of some roots**, as they complete. -/
theorem runTasks_loc (hfiled : db.store.Filed) (hroots : eph.roots ⊆ db.store.loadRootLayers)
    (hhashed : LocHashed D db sel eph) {completed : List RootLayer} :
    ∀ {T : LayerTable}, T.Sound (LocLayer D db) → completed.Nodup → completed ⊆ eph.roots →
      ∀ {tasks}, T.runTasks D.sha256 db.store.rootHash (locContent db eph) eph
        (locSpec db sel D.sha256 eph) completed = tasks →
      List.Forall₂ (Agree (IsTask tasks.2)) (completed.map fun root =>
          (taskRows D db sel eph T root).map fun rows => ((root.id : WithBot ℤ), rows)) tasks.1 ∧
        tasks.2.Sound (LocLayer D db) ∧ T.layers ⊆ tasks.2.layers := by
  induction completed with
  | nil =>
    intro T hT _ _ tasks htasks
    subst htasks
    exact ⟨.nil, hT, List.Subset.refl _⟩
  | cons root completed ih =>
    intro T hT hnodup hsubset tasks htasks
    obtain ⟨hnot, hnodup⟩ := List.nodup_cons.mp hnodup
    obtain ⟨hroot, hsubset⟩ := List.cons_subset.mp hsubset
    obtain ⟨hfirst, hsound₁, hlayers₁, hcached⟩ :=
      rootTask_loc hfiled hroots hhashed hT hroot rfl
    obtain ⟨hrest, hsound₂, hlayers₂⟩ := ih hsound₁ hnodup hsubset rfl
    subst htasks
    refine ⟨.cons ?_ ?_, hsound₂, List.Subset.trans hlayers₁ hlayers₂⟩
    · exact hfirst.mono fun _ _ h => h.mono hlayers₂
    · -- the first task leaves the bases of the other roots as they are
      have hsame : ∀ root' ∈ completed, taskRows D db sel eph (T.rootTask D.sha256
          db.store.rootHash (locContent db eph) eph (locSpec db sel D.sha256 eph) root).2 root' =
            taskRows D db sel eph T root' := by
        intro root' hroot'
        have hne : root' ≠ root := by
          rintro rfl
          exact hnot hroot'
        rw [taskRows, taskRows]
        simp only [hcached root' (hsubset hroot') hne]
      rw [List.map_congr_left fun root' hroot' => by rw [← hsame root' hroot']]
      exact hrest

end Task

/-! ### The outcome of a statement -/

section Outcome

variable {sel : LocSelector} {eph : EphContext} {T : LayerTable} {completed : List RootLayer}

/-- **The outcome, root by root.** -/
theorem locOutcome_eq (hfiled : db.store.Filed) (hroots : eph.roots ⊆ db.store.loadRootLayers)
    (hhashed : LocHashed D db sel eph) (hT : T.Sound (LocLayer D db)) (hnodup : completed.Nodup)
    (hsubset : completed ⊆ eph.roots) :
    locOutcome D db sel eph T completed =
      ((completed.map fun root => (taskRows D db sel eph T root).map fun rows =>
        ((root.id : WithBot ℤ), rows)).mapM id).map fun tasks =>
          ((tasks.insertionSort fun t t' => t.1 ≤ t'.1).flatMap (·.2), false) := by
  obtain ⟨htasks, hsound, -⟩ := runTasks_loc hfiled hroots hhashed hT hnodup hsubset rfl
  have hagree := Agree.mapM htasks
  unfold locOutcome locLayers LayerTable.withPartitionedLayers
  dsimp only
  revert hsound hagree
  generalize T.runTasks D.sha256 db.store.rootHash (locContent db eph) eph
    (locSpec db sel D.sha256 eph) completed = run
  generalize (completed.map fun root => (taskRows D db sel eph T root).map fun rows =>
    ((root.id : WithBot ℤ), rows)).mapM id = tasks
  generalize run.1.mapM id = groups
  intro hsound hagree
  cases hagree with
  | error e => rfl
  | @ok tasks groups hall =>
    -- a group is known by its root and by what is read in its layers
    have hread : groups.map (fun g => (LayerService.groupRoot g, run.2.selectedRows g)) = tasks := by
      induction hall with
      | nil => rfl
      | cons htask _ ih => rw [List.map_cons, ih, htask.root, htask.selectedRows hsound]
    have hsorted := List.map_insertionSort (fun g g' => LayerService.groupRoot g ≤
      LayerService.groupRoot g') (fun t t' : WithBot ℤ × List SelectedRow => t.1 ≤ t'.1)
      (fun g => (LayerService.groupRoot g, run.2.selectedRows g)) groups
      fun _ _ _ _ => Iff.rfl
    rw [hread] at hsorted
    have hrows : run.2.selectedRows (groups.insertionSort fun g g' =>
        LayerService.groupRoot g ≤ LayerService.groupRoot g').flatten =
          (tasks.insertionSort fun t t' => t.1 ≤ t'.1).flatMap (·.2) := by
      rw [← hsorted, List.flatMap_map, LayerTable.selectedRows_flatten]
    have huncut : ∀ g ∈ groups, ∀ a ∈ g, a.truncated = false := by
      clear hread hsorted hrows
      induction hall with
      | nil => exact List.forall_mem_nil _
      | cons htask _ ih => exact List.forall_mem_cons.mpr ⟨htask.truncated, ih⟩
    have hfalse : (groups.insertionSort fun g g' =>
        LayerService.groupRoot g ≤ LayerService.groupRoot g').flatten.any (·.truncated) = false := by
      rw [List.any_eq_false]
      intro a ha
      obtain ⟨g, hg, ha⟩ := List.mem_flatten.mp ha
      rw [huncut g ((List.mem_insertionSort _).mp hg) a ha]
      exact Bool.false_ne_true
    show Except.ok (run.2.selectedRows _, List.any _ _) = Except.ok _
    rw [hrows, hfalse]

/-- A cold cache has no base. -/
theorem not_baseCached_of_empty (hempty : T.layers = []) (root : RootLayer) :
    ¬BaseCached D db sel T root := by
  rw [BaseCached, LayerTable.find, hempty]
  simp

/-- A root with a cached base has something to contribute. -/
theorem taskRows_of_cached (hroots : eph.roots ⊆ db.store.loadRootLayers)
    (hhashed : LocHashed D db sel eph) (hT : T.Sound (LocLayer D db)) {root : RootLayer}
    (hroot : root ∈ eph.roots) (hcached : BaseCached D db sel T root) :
    ∃ rows, taskRows D db sel eph T root = .ok rows := by
  obtain ⟨l, hfind⟩ := Option.isSome_iff_exists.mp hcached
  obtain ⟨hl, hhash⟩ := LayerTable.mem_of_find hfind
  obtain ⟨-, hshare⟩ :=
    (hT.good l hl).base sel root (hroots hroot) (hhashed.base root hroot) hhash
  exact ⟨l.rows, by rw [taskRows, if_pos hcached, hshare]⟩

/-- A resolution that fails is the error of all tasks that resolve. -/
theorem mapM_taskRows_error (hroots : eph.roots ⊆ db.store.loadRootLayers)
    (hhashed : LocHashed D db sel eph) (hT : T.Sound (LocLayer D db)) {e : LocError}
    (hresolve : resolve db sel eph.rootIds false = .error e) (hsubset : completed ⊆ eph.roots)
    (hcold : ∃ root ∈ completed, ¬BaseCached D db sel T root) :
    (completed.map fun root => (taskRows D db sel eph T root).map fun rows =>
      ((root.id : WithBot ℤ), rows)).mapM id = .error e := by
  have hmiss : ∀ root, ¬BaseCached D db sel T root → taskRows D db sel eph T root = .error e := by
    intro root hnot
    rw [taskRows, if_neg hnot, hresolve]
    rfl
  refine mapM_id_eq_error ?_ ?_
  · intro x hx e' he'
    obtain ⟨root, hroot, rfl⟩ := List.mem_map.mp hx
    by_cases hcached : BaseCached D db sel T root
    · obtain ⟨rows, hrows⟩ := taskRows_of_cached hroots hhashed hT (hsubset hroot) hcached
      rw [hrows] at he'
      cases he'
    · rw [hmiss root hcached] at he'
      exact (Except.error.inj he').symm
  · obtain ⟨root, hroot, hnot⟩ := hcold
    refine List.mem_map.mpr ⟨root, hroot, ?_⟩
    rw [hmiss root hnot]
    rfl

/-- **When the cache makes no difference** to a location: no root is visible, or the base of
some visible root is not cached, or the path matches files under the visible roots that can
all be read, and one has the line. -/
theorem locOutcome_eq_cold_iff (hfiled : db.store.Filed)
    (hroots : eph.roots.Sublist db.store.loadRootLayers) (hhashed : LocHashed D db sel eph)
    {empty cold : LayerTable} (hempty : empty.layers = [])
    (hrun : ReflTransGen (TableStep D db) empty T) (hcold : cold.layers = [])
    (hcompleted : completed.Perm eph.roots) :
    locOutcome D db sel eph T completed = locOutcome D db sel eph cold completed ↔
      (eph.roots ≠ [] → (∀ root ∈ eph.roots, BaseCached D db sel T root) →
        Locatable db sel eph.rootIds) := by
  have hnodup : completed.Nodup :=
    hcompleted.nodup_iff.mpr (hroots.nodup hfiled.nodup_loadRootLayers)
  have hsubset := hcompleted.subset
  have hT := sound_of_run hfiled hempty hrun
  have hC : cold.Sound (LocLayer D db) := sound_of_empty hcold
  have hmiss : ∀ root, ¬BaseCached D db sel cold root := not_baseCached_of_empty hcold
  rw [locOutcome_eq hfiled hroots.subset hhashed hT hnodup hsubset,
    locOutcome_eq hfiled hroots.subset hhashed hC hnodup hsubset]
  cases hresolve : resolve db sel eph.rootIds false with
  | ok fileMatches =>
    -- what a root contributes does not depend on whether it is found or made
    have hsame : ∀ root, taskRows D db sel eph T root = taskRows D db sel eph cold root := by
      intro root
      have hmade : taskRows D db sel eph cold root = locShare db sel root := by
        rw [taskRows, if_neg (hmiss root), hresolve]
        rfl
      rw [hmade, taskRows, hresolve]
      split <;> rfl
    simp only [hsame]
    exact iff_of_true trivial fun _ _ => resolve_isOk_iff.mp ⟨fileMatches, hresolve⟩
  | error e =>
    have hnot : ¬Locatable db sel eph.rootIds := by
      intro hloc
      obtain ⟨fileMatches, hok⟩ := resolve_isOk_iff.mpr hloc
      rw [hresolve] at hok
      cases hok
    constructor
    · intro heq hne hcached
      exfalso
      obtain ⟨root, hroot⟩ := List.exists_mem_of_ne_nil _ hne
      rw [mapM_taskRows_error hroots.subset hhashed hC hresolve hsubset
        ⟨root, hcompleted.symm.subset hroot, hmiss root⟩] at heq
      choose! rows hrows using fun root hroot =>
        taskRows_of_cached hroots.subset hhashed hT hroot (hcached root hroot)
      rw [List.mapM_map, mapM_of_ok (g := fun root => ((root.id : WithBot ℤ), rows root))
        fun root hroot => by rw [Function.comp_apply, hrows root (hsubset hroot)]; rfl] at heq
      cases heq
    · intro h
      rcases eq_or_ne eph.roots [] with hnil | hne
      · rw [hnil] at hcompleted
        rw [hcompleted.eq_nil]
        rfl
      · have huncached : ∃ root ∈ eph.roots, ¬BaseCached D db sel T root := by
          by_contra hall
          push Not at hall
          exact hnot (h hne hall)
        obtain ⟨root, hroot, hcached⟩ := huncached
        have hmem := hcompleted.symm.subset hroot
        rw [mapM_taskRows_error hroots.subset hhashed hT hresolve hsubset ⟨root, hmem, hcached⟩,
          mapM_taskRows_error hroots.subset hhashed hC hresolve hsubset ⟨root, hmem, hmiss root⟩]

end Outcome

end Cache

/-! ### A file of another project -/

/-- Two projects, the second with one file. -/
def twoProjects : LocDatabase where
  store := { Store.initial [1] with
    projects := [⟨1, ['a'], ['/', 'a'], .complete, none, none, 3⟩,
      ⟨2, ['b'], ['/', 'b'], .complete, none, none, 4⟩]
    objects := [⟨1, 2, [], ['/', 'b', '/', 'x'], [], ['h'], 4⟩]
    contentStore := [⟨['h'], [104, 105, 10]⟩]
    layers := [⟨3, none, none, [5], .root, true, false⟩, ⟨4, none, none, [6], .root, true, false⟩]
    nextProjectId := 3
    nextRootLayerId := 5 }
  objectContents _ := none
  ltreeAccepts _ := true

theorem filed_twoProjects : twoProjects.store.Filed where
  projectIds := by decide
  projectIds_lt := by decide
  rootIds := by decide
  rootIds_lt := by decide
  roots := ⟨by decide, by decide⟩
  layerHashes := by decide
  objects := by decide

/-- The first line of the file. -/
def firstLine : LocSelector where
  filePath := ['x']
  line := 1
  project := none
  line_pos := Nat.one_pos
  line_lt := one_lt_usize
  filePath_lt := by decide +kernel

/-- The roots of both projects, and of the first alone. -/
def bothRoots : EphContext := .rooted [⟨3, 1⟩, ⟨4, 2⟩]

/-- The root of the first project. -/
def firstRoot : EphContext := .rooted [⟨3, 1⟩]

/-- The streams that two locations hash. -/
def locStreams : List Bytes :=
  [locStream firstLine, rootSaltedInput [5] (polynomialHash (locStream firstLine)),
    rootSaltedInput [6] (polynomialHash (locStream firstLine))]

/-- A digest that does not collide on them. -/
def locDigest : StreamDigest where
  sha256 := polynomialHash
  hashed := {stream | stream ∈ locStreams}
  injOn := by
    have h : ∀ a ∈ locStreams, ∀ b ∈ locStreams, polynomialHash a = polynomialHash b → a = b := by
      decide +kernel
    exact fun a ha b hb => h a ha b hb

/-- A cache without layers. -/
def coldTable : LayerTable := ⟨[], -1, -1, -1⟩

/-- The cache after the first root's task of a location under both roots. -/
def warmTable : LayerTable :=
  (coldTable.withEphLayer ((locKey locDigest twoProjects firstLine ⟨3, 1⟩ .base).hash polynomialHash)
    ((locSpec twoProjects firstLine polynomialHash bothRoots).basePopulate ⟨3, 1⟩)).2

theorem hashes_firstLine {root : RootLayer} (h : root ∈ bothRoots.roots) :
    locDigest.Hashes (locStream firstLine) (locKey locDigest twoProjects firstLine root .base) := by
  have hmem : rootSaltedInput (twoProjects.store.rootHash root.id)
      (polynomialHash (locStream firstLine)) ∈ locStreams := by
    revert root
    decide +kernel
  exact ⟨rfl, List.mem_cons_self, hmem, hmem, trivial⟩

theorem locHashed_firstRoot : LocHashed locDigest twoProjects firstLine firstRoot where
  base := by
    have hroots : ∀ r ∈ firstRoot.roots, r ∈ bothRoots.roots := by decide
    exact fun root hroot => hashes_firstLine (hroots root hroot)
  supplement root hroot parentId hparent := by
    have hroots : ∀ r ∈ firstRoot.roots, r = ⟨3, 1⟩ := by decide
    obtain rfl := hroots root hroot
    cases hparent

theorem run_warmTable :
    ReflTransGen (TableStep locDigest twoProjects) coldTable warmTable :=
  .single (.loc coldTable firstLine bothRoots ⟨3, 1⟩ .base _ (by decide) (by decide) .base
    (hashes_firstLine (by decide)))

/-- A location under the first root, after one under both. -/
theorem locOutcome_eq_cold_iff_firstLine :
    locOutcome locDigest twoProjects firstLine firstRoot warmTable [⟨3, 1⟩] =
        locOutcome locDigest twoProjects firstLine firstRoot coldTable [⟨3, 1⟩] ↔
      (firstRoot.roots ≠ [] →
        (∀ root ∈ firstRoot.roots, BaseCached locDigest twoProjects firstLine warmTable root) →
          Locatable twoProjects firstLine firstRoot.rootIds) :=
  locOutcome_eq_cold_iff filed_twoProjects (by decide) locHashed_firstRoot rfl run_warmTable rfl
    (by decide)

/-- **A location that matches no visible file is refused, unless it has been asked for under
more roots before.** -/
theorem not_locOutcome_eq_cold :
    ¬∀ (D : StreamDigest) (db : LocDatabase) (sel : LocSelector) (eph : EphContext)
      (empty T cold : LayerTable) (completed : List RootLayer), db.store.Filed →
      eph.roots.Sublist db.store.loadRootLayers → LocHashed D db sel eph → empty.layers = [] →
      ReflTransGen (TableStep D db) empty T → cold.layers = [] → completed.Perm eph.roots →
        locOutcome D db sel eph T completed = locOutcome D db sel eph cold completed := by
  intro h
  have heq := h locDigest twoProjects firstLine firstRoot coldTable warmTable coldTable [⟨3, 1⟩]
    filed_twoProjects (by decide) locHashed_firstRoot rfl run_warmTable rfl (by decide)
  have hwarm : (locOutcome locDigest twoProjects firstLine firstRoot warmTable
      [⟨3, 1⟩]).toOption = some ([], false) := by decide +kernel
  have hcold : (locOutcome locDigest twoProjects firstLine firstRoot coldTable
      [⟨3, 1⟩]).toOption = none := by decide +kernel
  rw [heq, hcold] at hwarm
  cases hwarm

end Askl
