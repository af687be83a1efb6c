import Askl.Query.CompositeLayer
import Askl.Query.PartitionedLayers

/-!
# The layers that a statement finds or makes

A statement's layers are found in the table of the committed ephemeral layers, or made by
the populates of its specification and committed to it.  The tasks of the roots all run to
their end; when one has failed, so has the statement, and the layers of the others stay.

What a layer holds is said by a predicate on committed layers.  It holds of the whole table
as soon as every populate makes such layers.

## Main definitions

* `PopulatedLayer`, `LayerTable` — the committed layers, with their rows.
* `LayerTxn` — the transaction that makes a layer, as populates see it.
* `LayerTable.withEphLayer` — find a layer, or make it.
* `LayerTable.withPartitionedLayers` — the layers of a statement.
* `LayerTable.selectedRows` — what a statement reads in its layers.
* `LayerTable.Sound` — every layer is as a predicate says.

## Main results

* `LayerTable.Sound.withEphLayer` — a call keeps the table sound.
* `LayerTable.Sound.layer_of_ok` — a call that succeeds returns a layer of the table.
* `LayerTable.Sound.rowsOf_eq` — the rows of a layer are read by its id.
-/

namespace Askl

/-! ### Layers -/

/-- A committed ephemeral layer: its key, whether it was cut off, and its rows. -/
structure PopulatedLayer where
  id : ℤ
  hash : Hash32
  truncated : Bool
  symbols : List NewSymbol
  instances : List SymbolInstance
  deriving DecidableEq

/-- What a statement shows of an instance that is on one of its layers, and of the symbol of
this: the columns without the ids of the ephemeral rows. -/
structure SelectedRow where
  name : Text
  symbolPath : Ltree
  projectId : ℤ
  symbolType : ℤ
  leafName : Text
  objectId : ℤ
  offsetRange : Int4range
  instanceType : ℤ
  deriving DecidableEq, Repr

/-- The row of an instance of a symbol. -/
def selectedRow (y : NewSymbol) (i : SymbolInstance) : SelectedRow :=
  ⟨y.name, y.symbolPath, y.projectId, y.symbolType, y.leafName, i.objectId, i.offsetRange,
    i.instanceType⟩

/-- The instances of a layer, joined with their symbols. -/
def joinedRows (symbols : List NewSymbol) (instances : List SymbolInstance) : List SelectedRow :=
  instances.filterMap fun i => (symbols.find? (·.id == i.symbol)).map (selectedRow · i)

/-- Instances of symbols that are alike have the rows of these. -/
theorem joinedRows_eq {symbols : List NewSymbol} {instances : List SymbolInstance}
    {row : SymbolInstance → SelectedRow}
    (hsymbol : ∀ i ∈ instances, ∃ y ∈ symbols, y.id = i.symbol)
    (hrow : ∀ y ∈ symbols, ∀ i ∈ instances, selectedRow y i = row i) :
    joinedRows symbols instances = instances.map row := by
  have hsome : ∀ i ∈ instances,
      ((symbols.find? (·.id == i.symbol)).map (selectedRow · i)) = some (row i) := by
    intro i hi
    obtain ⟨y, hy, hid⟩ := hsymbol i hi
    cases hfind : symbols.find? (·.id == i.symbol) with
    | none => exact absurd (beq_iff_eq.mpr hid) (List.find?_eq_none.mp hfind y hy)
    | some z => exact congrArg some (hrow z (List.mem_of_find?_eq_some hfind) i hi)
  rw [joinedRows, List.filterMap_congr hsome, List.filterMap_eq_map']

/-- The rows of a layer. -/
def PopulatedLayer.rows (l : PopulatedLayer) : List SelectedRow := joinedRows l.symbols l.instances

/-- `EphTransaction` of a layer that is being made. -/
structure LayerTxn where
  layerId : ℤ
  symbols : List NewSymbol
  instances : List SymbolInstance
  nextSymbolId : ℤ
  nextInstanceId : ℤ

/-- The committed ephemeral layers, and the next values of their sequences, which descend. -/
structure LayerTable where
  layers : List PopulatedLayer
  nextLayerId : ℤ
  nextSymbolId : ℤ
  nextInstanceId : ℤ
  deriving DecidableEq

namespace LayerTable

variable {ε : Type} (T : LayerTable)

/-- The layer of a key. -/
def find (hash : Hash32) : Option PopulatedLayer := T.layers.find? (·.hash == hash)

/-- A transaction on the next layer. -/
def openTxn : LayerTxn := ⟨T.nextLayerId, [], [], T.nextSymbolId, T.nextInstanceId⟩

/-- Commit the next layer. -/
def commit (hash : Hash32) (truncated : Bool) (txn : LayerTxn) : LayerTable where
  layers := T.layers ++ [⟨T.nextLayerId, hash, truncated, txn.symbols, txn.instances⟩]
  nextLayerId := T.nextLayerId - 1
  nextSymbolId := txn.nextSymbolId
  nextInstanceId := txn.nextInstanceId

/-- `with_eph_layer`: a hit does not run the populate, and a populate that fails is rolled
back. -/
def withEphLayer (hash : Hash32) (body : LayerPopulate LayerTxn ε) :
    Except ε LayerOutcome × LayerTable :=
  match T.find hash with
  | some l => (.ok ⟨l.id, false, l.truncated⟩, T)
  | none => match body T.openTxn with
    | .error e => (.error e, T)
    | .ok (truncated, txn) => (.ok ⟨T.nextLayerId, true, truncated⟩, T.commit hash truncated txn)

/-- Calls one after the other, up to the first that fails. -/
def withEphLayers : LayerTable → List (Hash32 × LayerPopulate LayerTxn ε) →
    Except ε (List LayerOutcome) × LayerTable
  | T, [] => (.ok [], T)
  | T, (hash, body) :: calls => match T.withEphLayer hash body with
    | (.error e, T) => (.error e, T)
    | (.ok o, T) => match withEphLayers T calls with
      | (.error e, T) => (.error e, T)
      | (.ok os, T) => (.ok (o :: os), T)

section Tasks

variable (sha256 : Bytes → Hash32) (rootHash : ℤ → Bytes) (content : ℤ → List ℤ)
  (eph : EphContext) (spec : PopulateSpec LayerTxn ε)

/-- The key of a layer of a root. -/
def layerKey (root : RootLayer) (part : LayerPart) : LayerKey :=
  ⟨rootHash root.id, spec.baseHash, spec.supplementExtra.val, part⟩

/-- The hash of a layer of a root. -/
def layerHash (root : RootLayer) (part : LayerPart) : Hash32 :=
  (layerKey rootHash spec root part).hash sha256

/-- The supplement of a root, if it has a chain. -/
def supplementCalls (root : RootLayer) (base : BaseLayerRef) :
    List (Hash32 × LayerPopulate LayerTxn ε) :=
  (eph.chainLast root.id).toList.map fun parent =>
    (layerHash sha256 rootHash spec root (.supplement parent), spec.supplementPopulate root base)

/-- The atoms of a root's content layers, for a specification that scans them. -/
def atomCalls (root : RootLayer) (base : BaseLayerRef) :
    List (Hash32 × LayerPopulate LayerTxn ε) :=
  spec.perLayerPopulate.toList.flatMap fun perLayer => (content root.projectId).map fun l =>
    (layerHash sha256 rootHash spec root (.perLayer l), perLayer root l base)

/-- The task of one root: the base, the supplement and the atoms, which are put between the
two. -/
def rootTask (root : RootLayer) : Except ε (List LayerActivation) × LayerTable :=
  match T.withEphLayer (layerHash sha256 rootHash spec root .base) (spec.basePopulate root) with
  | (.error e, T) => (.error e, T)
  | (.ok base, T) =>
    let baseRef := ⟨base.layerId, layerHash sha256 rootHash spec root .base⟩
    match T.withEphLayers (supplementCalls sha256 rootHash eph spec root baseRef) with
    | (.error e, T) => (.error e, T)
    | (.ok supplement, T) =>
      match T.withEphLayers (atomCalls sha256 rootHash content spec root baseRef) with
      | (.error e, T) => (.error e, T)
      | (.ok atoms, T) => (.ok ((base :: (atoms ++ supplement)).map fun o =>
          ⟨root.id, o.layerId, o.truncated⟩), T)

/-- The tasks of some roots, as they complete: none is cancelled when another fails. -/
def runTasks : LayerTable → List RootLayer → List (Except ε (List LayerActivation)) × LayerTable
  | T, [] => ([], T)
  | T, root :: roots =>
    let first := T.rootTask sha256 rootHash content eph spec root
    let rest := runTasks first.2 roots
    (first.1 :: rest.1, rest.2)

/-- `with_partitioned_layers`, for an order in which the tasks complete: the first failure,
or the layers in the order of their roots. -/
def withPartitionedLayers (completed : List RootLayer) :
    Except ε (List LayerActivation) × LayerTable :=
  let tasks := runTasks sha256 rootHash content eph spec T completed
  (match tasks.1.mapM id with
    | .error e => .error e
    | .ok groups => .ok (groups.insertionSort fun g g' =>
        LayerService.groupRoot g ≤ LayerService.groupRoot g').flatten, tasks.2)

end Tasks

/-! ### Reading -/

/-- The rows of the layer of an id. -/
def rowsOf (layerId : ℤ) : List SelectedRow :=
  (T.layers.filter (·.id == layerId)).flatMap (·.rows)

/-- What a statement reads in its layers: the union over all of them. -/
def selectedRows (activations : List LayerActivation) : List SelectedRow :=
  activations.flatMap fun a => T.rowsOf a.layerId

/-- What is read in groups of layers. -/
theorem selectedRows_flatten (groups : List (List LayerActivation)) :
    T.selectedRows groups.flatten = groups.flatMap T.selectedRows := by
  induction groups with
  | nil => rfl
  | cons g groups ih =>
    rw [List.flatten_cons, List.flatMap_cons, ← ih]
    exact List.flatMap_append

/-! ### Sound tables -/

variable {T}

/-- The layers have ids of their own, past the next one, and each is as a predicate says. -/
structure Sound (Good : PopulatedLayer → Prop) (T : LayerTable) : Prop where
  ids : (T.layers.map (·.id)).Nodup
  fresh : ∀ l ∈ T.layers, T.nextLayerId < l.id
  good : ∀ l ∈ T.layers, Good l

variable {Good : PopulatedLayer → Prop} {hash : Hash32} {body : LayerPopulate LayerTxn ε}

/-- A populate makes layers as a predicate says. -/
def MakesGood (Good : PopulatedLayer → Prop) (hash : Hash32) (body : LayerPopulate LayerTxn ε) :
    Prop :=
  ∀ txn truncated txn', txn.symbols = [] → txn.instances = [] → body txn = .ok (truncated, txn') →
    ∀ id, Good ⟨id, hash, truncated, txn'.symbols, txn'.instances⟩

namespace Sound

/-- The rows of a layer are read by its id. -/
theorem rowsOf_eq (h : T.Sound Good) {l : PopulatedLayer} (hl : l ∈ T.layers) :
    T.rowsOf l.id = l.rows := by
  rw [rowsOf, Keyed.filter_key_eq h.ids hl, List.flatMap_singleton]

/-- A committed layer is past the others. -/
theorem commit (h : T.Sound Good) {truncated : Bool} {txn : LayerTxn}
    (hgood : Good ⟨T.nextLayerId, hash, truncated, txn.symbols, txn.instances⟩) :
    (T.commit hash truncated txn).Sound Good where
  ids := by
    rw [LayerTable.commit, List.map_append, List.nodup_append]
    refine ⟨h.ids, List.nodup_singleton _, ?_⟩
    intro a ha b hb
    obtain ⟨l, hl, rfl⟩ := List.mem_map.mp ha
    obtain rfl := List.mem_singleton.mp hb
    exact (h.fresh l hl).ne'
  fresh := by
    intro l hl
    show T.nextLayerId - 1 < l.id
    rcases List.mem_append.mp hl with hl | hl
    · have := h.fresh l hl
      omega
    · obtain rfl := List.mem_singleton.mp hl
      show T.nextLayerId - 1 < T.nextLayerId
      omega
  good := by
    intro l hl
    rcases List.mem_append.mp hl with hl | hl
    · exact h.good l hl
    · obtain rfl := List.mem_singleton.mp hl
      exact hgood

/-- A call keeps the table sound. -/
theorem withEphLayer (h : T.Sound Good) (hbody : MakesGood Good hash body) :
    (T.withEphLayer hash body).2.Sound Good := by
  unfold LayerTable.withEphLayer
  cases T.find hash with
  | some l => exact h
  | none =>
    cases hrun : body T.openTxn with
    | error e => exact h
    | ok r => exact h.commit (hbody _ _ _ rfl rfl hrun _)

/-- Collections keep the table sound. -/
theorem collect (h : T.Sound Good) (keep : PopulatedLayer → Bool) :
    ({ T with layers := T.layers.filter keep } : LayerTable).Sound Good where
  ids := h.ids.sublist (List.filter_sublist.map _)
  fresh l hl := h.fresh l (List.mem_of_mem_filter hl)
  good l hl := h.good l (List.mem_of_mem_filter hl)

end Sound

/-! ### Calls -/

theorem withEphLayer_hit {l : PopulatedLayer} (h : T.find hash = some l) :
    T.withEphLayer hash body = (.ok ⟨l.id, false, l.truncated⟩, T) := by
  rw [withEphLayer, h]

theorem withEphLayer_error {e : ε} (h : T.find hash = none) (hrun : body T.openTxn = .error e) :
    T.withEphLayer hash body = (.error e, T) := by
  rw [withEphLayer, h]
  simp only [hrun]

theorem withEphLayer_created {truncated : Bool} {txn : LayerTxn} (h : T.find hash = none)
    (hrun : body T.openTxn = .ok (truncated, txn)) :
    T.withEphLayer hash body =
      (.ok ⟨T.nextLayerId, true, truncated⟩, T.commit hash truncated txn) := by
  rw [withEphLayer, h]
  simp only [hrun]

/-- Layers are never replaced. -/
theorem subset_withEphLayer (T : LayerTable) (hash : Hash32) (body : LayerPopulate LayerTxn ε) :
    T.layers ⊆ (T.withEphLayer hash body).2.layers := by
  unfold withEphLayer
  cases T.find hash with
  | some l => exact List.Subset.refl _
  | none =>
    cases body T.openTxn with
    | error e => exact List.Subset.refl _
    | ok r => exact List.subset_append_left _ _

/-- A call leaves the layers of other keys as they are. -/
theorem find_withEphLayer {hash' : Hash32} (hne : hash' ≠ hash) :
    (T.withEphLayer hash body).2.find hash' = T.find hash' := by
  unfold withEphLayer
  cases T.find hash with
  | some l => rfl
  | none =>
    cases body T.openTxn with
    | error e => rfl
    | ok r =>
      show (T.layers ++ [_]).find? _ = _
      rw [List.find?_append, List.find?_singleton, if_neg (by rwa [beq_iff_eq, eq_comm]),
        Option.or_none]
      rfl

theorem mem_of_find {l : PopulatedLayer} (h : T.find hash = some l) :
    l ∈ T.layers ∧ l.hash = hash := by
  have hhash := List.find?_some (p := fun k : PopulatedLayer => k.hash == hash) h
  exact ⟨List.mem_of_find?_eq_some h, beq_iff_eq.mp hhash⟩

/-- A call that succeeds returns a layer of the table that it leaves. -/
theorem layer_of_ok {o : LayerOutcome} (h : (T.withEphLayer hash body).1 = .ok o) :
    ∃ l ∈ (T.withEphLayer hash body).2.layers, l.hash = hash ∧ l.id = o.layerId ∧
      l.truncated = o.truncated := by
  unfold withEphLayer at h ⊢
  cases hfind : T.find hash with
  | some l =>
    rw [hfind] at h
    obtain rfl := Except.ok.inj h
    obtain ⟨hl, hhash⟩ := mem_of_find hfind
    exact ⟨l, hl, hhash, rfl, rfl⟩
  | none =>
    rw [hfind] at h
    cases hrun : body T.openTxn with
    | error e =>
      simp only [hrun] at h
      cases h
    | ok r =>
      simp only [hrun] at h
      obtain rfl := Except.ok.inj h
      exact ⟨_, List.mem_append_right _ List.mem_cons_self, rfl, rfl, rfl⟩

/-- One call that succeeds. -/
theorem withEphLayers_singleton {o : LayerOutcome} (h : (T.withEphLayer hash body).1 = .ok o) :
    T.withEphLayers [(hash, body)] = (.ok [o], (T.withEphLayer hash body).2) := by
  rw [withEphLayers]
  cases hcall : T.withEphLayer hash body with
  | mk res T' =>
    rw [hcall] at h
    obtain rfl : res = .ok o := h
    rfl

end LayerTable

end Askl
