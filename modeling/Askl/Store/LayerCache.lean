import Askl.Library.Runs
import Askl.Store.Upload

/-!
# The layer cache

Ephemeral layers are created by transactions that insert a row, populate it, mark it and
commit, and are found again by the hash of their inputs.  Two transactions never work on one
hash at a time, since the unique index makes the second wait for the first; and a purge
waits for all of them and keeps new ones away until it commits.

## Main definitions

* `Populate` — what the populate closure of a hash reads and returns.
* `EphTransaction`, `CacheState` — the layer transactions under way, and the state they share.
* `CacheState.act` — one action of a creator, of a reader, of a request or of a purge.
* `CacheInv` — what every run keeps.

## Main results

* `CacheInv.act` — every action keeps the invariant.
* `hit_committed_of_run` — **a layer that is returned as a hit was populated in full**, by the
  creator that committed it, and its flag is the one that creator computed.
-/

namespace Askl

open Relation

/-! ### Transactions -/

/-- The arguments of `with_eph_layer`. -/
structure LayerCall where
  parentId : Option ℤ
  baseId : Option ℤ
  hash : Bytes
  kind : EphLayerKind
  deriving DecidableEq, Repr

/-- The populate closures: for every hash, the statements that fill the layer from the
persistent rows, and whether what they found was cut off. -/
structure Populate (ρ : Type) where
  statements : Bytes → List (PersistentRows → List ρ)
  truncated : Bytes → List (List ρ) → Bool

/-- How far the creator of a layer has come. -/
inductive Phase where
  | populating
  | returned (truncated : Bool)
  | truncatedMarked
  | populatedMarked
  deriving DecidableEq, Repr

/-- `EphTransaction`: an open transaction on one layer, with the row as it has written or
found it, and for a creator the results of the statements it has run. -/
structure EphTransaction (ρ : Type) where
  layer : LayerRow
  created : Bool
  phase : Phase
  results : List (List ρ)
  /-- Not in the source: how many changes of the rows had been committed at each statement. -/
  readAt : List ℕ

/-- `LayerOutcome`. -/
structure LayerOutcome where
  layerId : ℤ
  created : Bool
  truncated : Bool
  deriving DecidableEq, Repr

/-- What the call of a transaction returns. -/
def EphTransaction.outcome {ρ : Type} (t : EphTransaction ρ) : LayerOutcome :=
  ⟨t.layer.id, t.created, t.layer.truncated⟩

/-- A creator that has committed; a record the source does not keep. -/
structure LayerCommit (ρ : Type) where
  layerId : ℤ
  hash : Bytes
  results : List (List ρ)
  readAt : List ℕ

/-- The committed tables, the layer transactions, and the tables that a purging transaction
will leave once it commits. -/
structure CacheState (ρ : Type) where
  store : Store
  transactions : List (EphTransaction ρ)
  locked : Option Store
  /-- The data rows of the ephemeral layers that have been committed. -/
  contents : ℤ → List (List ρ)
  nextEphLayerId : ℤ
  /-- Not in the source: the number of changes of the persistent rows so far. -/
  version : ℕ
  /-- Not in the source: the creators that have committed. -/
  commits : List (LayerCommit ρ)
  /-- Not in the source: the layers whose creator was rolled back. -/
  rolledBack : List ℤ

/-- One action on the layer cache. -/
inductive CacheAction where
  | request (req : Request)
  | lock (req : Request)
  | purge
  | openLayer (call : LayerCall)
  | statement (layerId : ℤ)
  | bodyDone (layerId : ℤ)
  | markTruncated (layerId : ℤ)
  | markPopulated (layerId : ℤ)
  | commit (layerId : ℤ)
  | rollback (layerId : ℤ)
  | returnHit (layerId : ℤ)
  | collect (layerIds : List ℤ)

namespace CacheState

variable {ρ : Type}

/-- Before any layer. -/
def initial (s : Store) : CacheState ρ where
  store := s.purgeEphCache
  transactions := []
  locked := none
  contents := fun _ => []
  nextEphLayerId := -1000000
  version := 0
  commits := []
  rolledBack := []

/-- The tables a request leaves. -/
def install (st : CacheState ρ) (s : Store) : CacheState ρ :=
  { st with store := s, version := if s.rows = st.store.rows then st.version else st.version + 1 }

/-- The creator of a layer. -/
def creating (st : CacheState ρ) (layerId : ℤ) : Option (EphTransaction ρ) :=
  st.transactions.find? fun t => t.created && t.layer.id == layerId

/-- Put a creator in the place of another. -/
def update (st : CacheState ρ) (layerId : ℤ) (t' : EphTransaction ρ) : CacheState ρ :=
  { st with transactions := st.transactions.map fun t =>
      if t.created && t.layer.id == layerId then t' else t }

/-- End the transactions of a layer: its creator, or the calls that have found it. -/
def drop (st : CacheState ρ) (created : Bool) (layerId : ℤ) : CacheState ρ :=
  { st with transactions := st.transactions.filter fun t =>
      !(t.created == created && t.layer.id == layerId) }

/-- Whether a layer that a row refers to exists. -/
def hasLayer (st : CacheState ρ) (layerId : Option ℤ) : Bool :=
  layerId.all fun id => st.store.layers.any (·.id == id)

/-- `create_eph_layer`, once no other transaction works on the hash: find the committed row,
or insert one whose parent and base exist.  No key is the hash of a root or of the canary. -/
def openLayer (st : CacheState ρ) (call : LayerCall) : Option (CacheState ρ) :=
  match st.store.layers.find? (·.hash == call.hash) with
  | some row =>
    if row.populated && !row.kind.isProtected then
      some { st with transactions := st.transactions ++ [⟨row, false, .populating, [], []⟩] }
    else none
  | none =>
    if st.hasLayer call.parentId && st.hasLayer call.baseId then
      some { st with
        transactions := st.transactions ++ [⟨⟨st.nextEphLayerId, call.parentId, call.baseId,
          call.hash, call.kind, false, false⟩, true, .populating, [], []⟩]
        nextEphLayerId := st.nextEphLayerId - 1 }
    else none

/-- The next statement of a populate closure reads the committed rows. -/
def statement (P : Populate ρ) (st : CacheState ρ) (layerId : ℤ) : Option (CacheState ρ) :=
  match st.creating layerId with
  | none => none
  | some t => match t.phase, (P.statements t.layer.hash)[t.results.length]? with
    | .populating, some f => some (st.update layerId { t with
        results := t.results ++ [f st.store.rows]
        readAt := t.readAt ++ [st.version] })
    | _, _ => none

/-- The populate closure has run all its statements and returns. -/
def bodyDone (P : Populate ρ) (st : CacheState ρ) (layerId : ℤ) : Option (CacheState ρ) :=
  match st.creating layerId with
  | none => none
  | some t =>
    if t.phase = .populating ∧ t.results.length = (P.statements t.layer.hash).length then
      some (st.update layerId { t with
        phase := .returned (P.truncated t.layer.hash t.results) })
    else none

/-- `mark_truncated`. -/
def markTruncated (st : CacheState ρ) (layerId : ℤ) : Option (CacheState ρ) :=
  match st.creating layerId with
  | none => none
  | some t => match t.phase with
    | .returned truncated => some (st.update layerId { t with
        layer := { t.layer with truncated := truncated }
        phase := .truncatedMarked })
    | _ => none

/-- `mark_populated`. -/
def markPopulated (st : CacheState ρ) (layerId : ℤ) : Option (CacheState ρ) :=
  match st.creating layerId with
  | none => none
  | some t =>
    if t.phase = .truncatedMarked then
      some (st.update layerId { t with
        layer := { t.layer with populated := true }
        phase := .populatedMarked })
    else none

/-- `EphTransaction::commit` of a creator. -/
def commit (st : CacheState ρ) (layerId : ℤ) : Option (CacheState ρ) :=
  match st.creating layerId with
  | none => none
  | some t =>
    if t.phase = .populatedMarked then
      some { st.drop true layerId with
        store := { st.store with layers := st.store.layers ++ [t.layer] }
        contents := Function.update st.contents layerId t.results
        commits := st.commits ++ [⟨layerId, t.layer.hash, t.results, t.readAt⟩] }
    else none

/-- `EphTransaction::rollback`, or the recycling of a connection whose call was dropped. -/
def rollback (st : CacheState ρ) (layerId : ℤ) : Option (CacheState ρ) :=
  match st.creating layerId with
  | none => none
  | some _ => some { st.drop true layerId with rolledBack := layerId :: st.rolledBack }

/-- Collect ephemeral layers that no call has found; the closure decides which. -/
def collect (st : CacheState ρ) (layerIds : List ℤ) : Option (CacheState ρ) :=
  if st.transactions.any fun t => !t.created && layerIds.contains t.layer.id then none
  else some { st with
    store := { st.store with layers := st.store.layers.filter fun l =>
      l.kind.isProtected || !layerIds.contains l.id } }

/-- One action.  Purges lock the layers when no layer transaction is open; while they hold
the lock, no request that changes rows or layers and no layer transaction goes on. -/
def act (hashBytes : Bytes → Text) (P : Populate ρ) (st : CacheState ρ) :
    CacheAction → Option (CacheState ρ)
  | .request req =>
    if st.locked.isSome then none
    else match st.store.handle hashBytes req with
      | .error _ => none
      | .ok c => if c.purged then none else some (st.install c.store)
  | .lock req =>
    if st.locked.isSome || !st.transactions.isEmpty then none
    else match st.store.handle hashBytes req with
      | .error _ => none
      | .ok c => if c.purged then some { st with locked := some c.store } else none
  | .purge => match st.locked with
    | none => none
    | some s => some { st.install s with locked := none }
  | .openLayer call =>
    if st.locked.isSome || st.transactions.any (·.layer.hash == call.hash) then none
    else st.openLayer call
  | .statement layerId => st.statement P layerId
  | .bodyDone layerId => st.bodyDone P layerId
  | .markTruncated layerId => st.markTruncated layerId
  | .markPopulated layerId => st.markPopulated layerId
  | .commit layerId => st.commit layerId
  | .rollback layerId => st.rollback layerId
  | .returnHit layerId => some (st.drop false layerId)
  | .collect layerIds => if st.locked.isSome then none else st.collect layerIds

end CacheState

/-- An action that meets a guard. -/
def CacheStep {ρ : Type} (hashBytes : Bytes → Text) (P : Populate ρ)
    (guard : CacheState ρ → CacheAction → Bool) (st st' : CacheState ρ) : Prop :=
  ∃ a, guard st a = true ∧ st.act hashBytes P a = some st'

/-! ### Creators -/

section Creators

variable {ρ : Type} {P : Populate ρ} {st : CacheState ρ}

/-- The results of a closure that has run to its end. -/
def Populate.Full (P : Populate ρ) (hash : Bytes) (results : List (List ρ)) : Prop :=
  results.length = (P.statements hash).length

/-- What the phase of a creator says about its row. -/
def EphTransaction.Marked (P : Populate ρ) (t : EphTransaction ρ) : Prop :=
  match t.phase with
  | .populating => True
  | .returned truncated =>
    P.Full t.layer.hash t.results ∧ truncated = P.truncated t.layer.hash t.results
  | .truncatedMarked =>
    P.Full t.layer.hash t.results ∧ t.layer.truncated = P.truncated t.layer.hash t.results
  | .populatedMarked =>
    P.Full t.layer.hash t.results ∧ t.layer.truncated = P.truncated t.layer.hash t.results ∧
      t.layer.populated = true

/-- Whether a layer is being created. -/
def CacheState.IsCreating (st : CacheState ρ) (layerId : ℤ) : Prop :=
  ∃ t ∈ st.transactions, t.created = true ∧ t.layer.id = layerId

theorem mem_of_creating {layerId : ℤ} {t : EphTransaction ρ}
    (h : st.creating layerId = some t) :
    t ∈ st.transactions ∧ t.created = true ∧ t.layer.id = layerId := by
  have hp := List.find?_some h
  simp only [Bool.and_eq_true, beq_iff_eq] at hp
  exact ⟨List.mem_of_find?_eq_some h, hp⟩

/-- A creator that is replaced keeps its layer; all other transactions stay. -/
theorem mem_update {layerId : ℤ} {t' u : EphTransaction ρ}
    (h : u ∈ (st.update layerId t').transactions) :
    u = t' ∨ (u ∈ st.transactions ∧ ¬(u.created = true ∧ u.layer.id = layerId)) := by
  obtain ⟨t, ht, rfl⟩ := List.mem_map.mp h
  split
  · exact Or.inl rfl
  · next hne => exact Or.inr ⟨ht, by simpa using hne⟩

theorem mem_drop {created : Bool} {layerId : ℤ} {u : EphTransaction ρ} :
    u ∈ (st.drop created layerId).transactions ↔
      u ∈ st.transactions ∧ ¬(u.created = created ∧ u.layer.id = layerId) := by
  simp only [CacheState.drop, List.mem_filter, Bool.not_eq_true', Bool.and_eq_false_iff,
    beq_eq_false_iff_ne]
  tauto

/-- Dropping a transaction starts no creation. -/
theorem isCreating_of_drop {created : Bool} {layerId i : ℤ}
    (h : (st.drop created layerId).IsCreating i) : st.IsCreating i := by
  obtain ⟨u, hu, huc, rfl⟩ := h
  exact ⟨u, (mem_drop.mp hu).1, huc, rfl⟩

/-- A layer whose creator is dropped is not being created any more. -/
theorem ne_of_isCreating_drop {layerId i : ℤ} (h : (st.drop true layerId).IsCreating i) :
    i ≠ layerId := by
  obtain ⟨u, hu, huc, rfl⟩ := h
  exact fun heq => (mem_drop.mp hu).2 ⟨huc, heq⟩

end Creators

/-! ### What an action does -/

section Actions

variable {ρ : Type} {hashBytes : Bytes → Text} {P : Populate ρ} {st st' : CacheState ρ}

/-- What a creator does, it does as a row that is being created. -/
theorem exists_creating {layerId : ℤ} {f : EphTransaction ρ → Option (CacheState ρ)}
    (h : (match st.creating layerId with
      | none => none
      | some t => f t) = some st') : ∃ t, st.creating layerId = some t ∧ f t = some st' := by
  split at h
  · cases h
  · next t ht => exact ⟨t, ht, h⟩

/-- A request that changes rows but purges nothing. -/
theorem request_of_act {req : Request}
    (h : st.act hashBytes P (.request req) = some st') :
    ∃ c, st.store.handle hashBytes req = .ok c ∧ c.purged = false ∧
      c.store.ephemeralLayers = st.store.ephemeralLayers ∧ st' = st.install c.store := by
  simp only [CacheState.act] at h
  split at h
  · cases h
  · split at h
    · cases h
    · next c hc =>
      split at h
      · cases h
      · next hpurged =>
        have hlayers := Store.ephemeralLayers_handle hc
        rw [if_neg hpurged] at hlayers
        exact ⟨c, hc, by simpa using hpurged, hlayers, (Option.some.inj h).symm⟩

/-- A request that purges waits until no transaction is open. -/
theorem lock_of_act {req : Request} (h : st.act hashBytes P (.lock req) = some st') :
    ∃ c, st.store.handle hashBytes req = .ok c ∧ c.store.ephemeralLayers = [] ∧
      st.transactions = [] ∧ st' = { st with locked := some c.store } := by
  simp only [CacheState.act] at h
  split at h
  · cases h
  · next hfree =>
    have hnone : st.transactions = [] := by
      simp only [Bool.or_eq_true, not_or, Bool.not_eq_true, Bool.not_eq_false',
        List.isEmpty_iff] at hfree
      exact hfree.2
    split at h
    · cases h
    · next c hc =>
      split at h
      · next hpurged =>
        have hlayers := Store.ephemeralLayers_handle hc
        rw [if_pos hpurged] at hlayers
        exact ⟨c, hc, hlayers, hnone, (Option.some.inj h).symm⟩
      · cases h

theorem purge_of_act (h : st.act hashBytes P .purge = some st') :
    ∃ s, st.locked = some s ∧ st' = { st.install s with locked := none } := by
  simp only [CacheState.act] at h
  split at h
  · cases h
  · next s hs => exact ⟨s, hs, (Option.some.inj h).symm⟩

/-- A call finds a committed row, or inserts one. -/
theorem openLayer_of_act {call : LayerCall} (h : st.act hashBytes P (.openLayer call) = some st') :
    st.locked = none ∧
      ((∃ row ∈ st.store.ephemeralLayers,
        st' = { st with
          transactions := st.transactions ++ [⟨row, false, .populating, [], []⟩] }) ∨
      ∃ row, row.id = st.nextEphLayerId ∧
        st' = { st with
          transactions := st.transactions ++ [⟨row, true, .populating, [], []⟩]
          nextEphLayerId := st.nextEphLayerId - 1 }) := by
  simp only [CacheState.act] at h
  split at h
  · cases h
  · next hfree =>
    have hlock : st.locked = none := by
      simp only [Bool.or_eq_true, not_or, Bool.not_eq_true, Option.isSome_eq_false_iff,
        Option.isNone_iff_eq_none] at hfree
      exact hfree.1
    unfold CacheState.openLayer at h
    split at h
    · next row hrow =>
      split at h
      · next hkind =>
        have hmem : row ∈ st.store.ephemeralLayers :=
          List.mem_filter.mpr ⟨List.mem_of_find?_eq_some hrow, (Bool.and_eq_true_iff.mp hkind).2⟩
        exact ⟨hlock, Or.inl ⟨row, hmem, (Option.some.inj h).symm⟩⟩
      · cases h
    · split at h
      · exact ⟨hlock, Or.inr ⟨_, rfl, (Option.some.inj h).symm⟩⟩
      · cases h

theorem statement_of_act {layerId : ℤ} (h : st.act hashBytes P (.statement layerId) = some st') :
    ∃ t f, st.creating layerId = some t ∧ t.phase = .populating ∧
      (P.statements t.layer.hash)[t.results.length]? = some f ∧
        st' = st.update layerId { t with
          results := t.results ++ [f st.store.rows]
          readAt := t.readAt ++ [st.version] } := by
  obtain ⟨t, ht, h⟩ := exists_creating h
  split at h
  · next f hphase hf => exact ⟨t, f, ht, hphase, hf, (Option.some.inj h).symm⟩
  · cases h

theorem bodyDone_of_act {layerId : ℤ} (h : st.act hashBytes P (.bodyDone layerId) = some st') :
    ∃ t, st.creating layerId = some t ∧ P.Full t.layer.hash t.results ∧
      st' = st.update layerId { t with
        phase := .returned (P.truncated t.layer.hash t.results) } := by
  obtain ⟨t, ht, h⟩ := exists_creating h
  split at h
  · next hdone => exact ⟨t, ht, hdone.2, (Option.some.inj h).symm⟩
  · cases h

theorem markTruncated_of_act {layerId : ℤ}
    (h : st.act hashBytes P (.markTruncated layerId) = some st') :
    ∃ t truncated, st.creating layerId = some t ∧ t.phase = .returned truncated ∧
      st' = st.update layerId { t with
        layer := { t.layer with truncated := truncated }
        phase := .truncatedMarked } := by
  obtain ⟨t, ht, h⟩ := exists_creating h
  split at h
  · next truncated hphase => exact ⟨t, truncated, ht, hphase, (Option.some.inj h).symm⟩
  · cases h

theorem markPopulated_of_act {layerId : ℤ}
    (h : st.act hashBytes P (.markPopulated layerId) = some st') :
    ∃ t, st.creating layerId = some t ∧ t.phase = .truncatedMarked ∧
      st' = st.update layerId { t with
        layer := { t.layer with populated := true }
        phase := .populatedMarked } := by
  obtain ⟨t, ht, h⟩ := exists_creating h
  split at h
  · next hphase => exact ⟨t, ht, hphase, (Option.some.inj h).symm⟩
  · cases h

theorem commit_of_act {layerId : ℤ} (h : st.act hashBytes P (.commit layerId) = some st') :
    ∃ t, st.creating layerId = some t ∧ t.phase = .populatedMarked ∧
      st' = { st.drop true layerId with
        store := { st.store with layers := st.store.layers ++ [t.layer] }
        contents := Function.update st.contents layerId t.results
        commits := st.commits ++ [⟨layerId, t.layer.hash, t.results, t.readAt⟩] } := by
  obtain ⟨t, ht, h⟩ := exists_creating h
  split at h
  · next hphase => exact ⟨t, ht, hphase, (Option.some.inj h).symm⟩
  · cases h

theorem rollback_of_act {layerId : ℤ} (h : st.act hashBytes P (.rollback layerId) = some st') :
    ∃ t, st.creating layerId = some t ∧
      st' = { st.drop true layerId with rolledBack := layerId :: st.rolledBack } := by
  obtain ⟨t, ht, h⟩ := exists_creating h
  exact ⟨t, ht, (Option.some.inj h).symm⟩

/-- A collection takes no layer that a call has found. -/
theorem collect_of_act {layerIds : List ℤ} (h : st.act hashBytes P (.collect layerIds) = some st') :
    st.locked = none ∧
      (∀ t ∈ st.transactions, t.created = false → t.layer.id ∉ layerIds) ∧
        st' = { st with
          store := { st.store with layers := st.store.layers.filter fun l =>
            l.kind.isProtected || !layerIds.contains l.id } } := by
  simp only [CacheState.act, CacheState.collect] at h
  split at h
  · cases h
  · next hlock =>
    split at h
    · cases h
    · next hfree =>
      refine ⟨by simpa using hlock, fun t ht hc hmem => hfree ?_, (Option.some.inj h).symm⟩
      exact List.any_eq_true.mpr ⟨t, ht, by simp [hc, hmem]⟩

end Actions

/-! ### The invariant -/

section Invariant

variable {ρ : Type}

/-- The creator of a layer has committed: the layer holds what its closure computed. -/
def CacheState.Populated (P : Populate ρ) (st : CacheState ρ) (l : LayerRow) : Prop :=
  l.populated = true ∧ ∃ r ∈ st.commits, r.layerId = l.id ∧ r.hash = l.hash ∧
    P.Full l.hash r.results ∧ st.contents l.id = r.results ∧
    l.truncated = P.truncated l.hash r.results

/-- What every run keeps: creators are marked in order, found rows are committed, committed
rows are populated, and no layer id is drawn twice. -/
structure CacheInv (P : Populate ρ) (st : CacheState ρ) : Prop where
  marked : ∀ t ∈ st.transactions, t.created = true → t.Marked P
  found : ∀ t ∈ st.transactions, t.created = false → t.layer ∈ st.store.ephemeralLayers
  populated : ∀ l ∈ st.store.ephemeralLayers, st.Populated P l
  locked : ∀ s, st.locked = some s → st.transactions = [] ∧ s.ephemeralLayers = []
  creating_lt : ∀ i, st.IsCreating i → st.nextEphLayerId < i
  commit_lt : ∀ r ∈ st.commits, st.nextEphLayerId < r.layerId ∧ ¬st.IsCreating r.layerId ∧
    r.layerId ∉ st.rolledBack
  rolledBack_lt : ∀ i ∈ st.rolledBack, st.nextEphLayerId < i ∧ ¬st.IsCreating i

theorem cacheInv_initial (P : Populate ρ) (s : Store) : CacheInv P (.initial s) := by
  refine ⟨?_, ?_, fun l hl => ?_, ?_, ?_, ?_, ?_⟩
  · simp [CacheState.initial]
  · simp [CacheState.initial]
  · have hnone : (CacheState.initial s : CacheState ρ).store.ephemeralLayers = [] :=
      Store.ephemeralLayers_purgeEphCache
    simp [hnone] at hl
  · simp [CacheState.initial]
  · simp [CacheState.initial, CacheState.IsCreating]
  · simp [CacheState.initial]
  · simp [CacheState.initial]

variable {hashBytes : Bytes → Text} {P : Populate ρ} {st : CacheState ρ}

namespace CacheInv

/-- A transaction whose tables keep the ephemeral layers is out of the invariant's sight. -/
theorem install (h : CacheInv P st) {s : Store}
    (hs : s.ephemeralLayers = st.store.ephemeralLayers) : CacheInv P (st.install s) where
  marked := h.marked
  found t ht hc := hs ▸ h.found t ht hc
  populated l hl := h.populated l (hs ▸ hl)
  locked := h.locked
  creating_lt := h.creating_lt
  commit_lt := h.commit_lt
  rolledBack_lt := h.rolledBack_lt

/-- While a transaction is open no purge holds the lock. -/
theorem not_locked (h : CacheInv P st) {t : EphTransaction ρ} (ht : t ∈ st.transactions)
    (s : Store) : st.locked ≠ some s := by
  intro hs
  rw [(h.locked s hs).1] at ht
  cases ht

/-- A purge finds no transaction open and leaves no layer. -/
theorem purge (h : CacheInv P st) {s : Store} (hs : st.locked = some s) :
    CacheInv P { st.install s with locked := none } := by
  obtain ⟨hnone, hlayers⟩ := h.locked s hs
  refine ⟨h.marked, fun t ht => ?_, fun l hl => ?_, by simp, h.creating_lt, h.commit_lt,
    h.rolledBack_lt⟩
  · simp [CacheState.install, hnone] at ht
  · simp [CacheState.install, hlayers] at hl

/-- Replacing a creator by one of the same layer. -/
theorem update (h : CacheInv P st) {layerId : ℤ} {t t' : EphTransaction ρ}
    (ht : st.creating layerId = some t) (hcreated : t'.created = true)
    (hid : t'.layer.id = layerId) (hmarked : t'.Marked P) : CacheInv P (st.update layerId t') := by
  obtain ⟨hmem, htc, htid⟩ := mem_of_creating ht
  have hcreating : ∀ i, (st.update layerId t').IsCreating i → st.IsCreating i := by
    rintro i ⟨u, hu, huc, rfl⟩
    rcases mem_update hu with rfl | ⟨hu, -⟩
    · exact ⟨t, hmem, htc, htid.trans hid.symm⟩
    · exact ⟨u, hu, huc, rfl⟩
  refine ⟨fun u hu huc => ?_, fun u hu huc => ?_, h.populated, fun s hs => ?_,
    fun i hi => h.creating_lt i (hcreating i hi), fun r hr => ?_, fun i hi => ?_⟩
  · rcases mem_update hu with rfl | ⟨hu, -⟩
    · exact hmarked
    · exact h.marked u hu huc
  · rcases mem_update hu with rfl | ⟨hu, -⟩
    · simp [hcreated] at huc
    · exact h.found u hu huc
  · exact absurd hs (h.not_locked hmem s)
  · obtain ⟨hlt, hc, hback⟩ := h.commit_lt r hr
    exact ⟨hlt, fun hc' => hc (hcreating _ hc'), hback⟩
  · obtain ⟨hlt, hc⟩ := h.rolledBack_lt i hi
    exact ⟨hlt, fun hc' => hc (hcreating _ hc')⟩

/-- A call that finds a committed row. -/
theorem openFound (h : CacheInv P st) (hlock : st.locked = none) {row : LayerRow}
    (hrow : row ∈ st.store.ephemeralLayers) : CacheInv P { st with
      transactions := st.transactions ++ [⟨row, false, .populating, [], []⟩] } := by
  have hcreating : ∀ i, CacheState.IsCreating { st with
      transactions := st.transactions ++ [⟨row, false, .populating, [], []⟩] } i →
        st.IsCreating i := by
    rintro i ⟨u, hu, huc, rfl⟩
    rcases List.mem_append.mp hu with hu | hu
    · exact ⟨u, hu, huc, rfl⟩
    · obtain rfl := List.mem_singleton.mp hu
      cases huc
  refine ⟨fun u hu huc => ?_, fun u hu huc => ?_, h.populated, by simp [hlock],
    fun i hi => h.creating_lt i (hcreating i hi), fun r hr => ?_, fun i hi => ?_⟩
  · rcases List.mem_append.mp hu with hu | hu
    · exact h.marked u hu huc
    · obtain rfl := List.mem_singleton.mp hu
      cases huc
  · rcases List.mem_append.mp hu with hu | hu
    · exact h.found u hu huc
    · obtain rfl := List.mem_singleton.mp hu
      exact hrow
  · obtain ⟨hlt, hc, hback⟩ := h.commit_lt r hr
    exact ⟨hlt, fun hc' => hc (hcreating _ hc'), hback⟩
  · obtain ⟨hlt, hc⟩ := h.rolledBack_lt i hi
    exact ⟨hlt, fun hc' => hc (hcreating _ hc')⟩

/-- A call that inserts a row. -/
theorem openCreated (h : CacheInv P st) (hlock : st.locked = none) {row : LayerRow}
    (hid : row.id = st.nextEphLayerId) : CacheInv P { st with
      transactions := st.transactions ++ [⟨row, true, .populating, [], []⟩]
      nextEphLayerId := st.nextEphLayerId - 1 } := by
  have hcreating : ∀ i, CacheState.IsCreating { st with
      transactions := st.transactions ++ [⟨row, true, .populating, [], []⟩]
      nextEphLayerId := st.nextEphLayerId - 1 } i → st.IsCreating i ∨ i = st.nextEphLayerId := by
    rintro i ⟨u, hu, huc, rfl⟩
    rcases List.mem_append.mp hu with hu | hu
    · exact Or.inl ⟨u, hu, huc, rfl⟩
    · obtain rfl := List.mem_singleton.mp hu
      exact Or.inr hid
  refine ⟨fun u hu huc => ?_, fun u hu huc => ?_, h.populated, by simp [hlock],
    fun i hi => ?_, fun r hr => ?_, fun i hi => ?_⟩
  · rcases List.mem_append.mp hu with hu | hu
    · exact h.marked u hu huc
    · obtain rfl := List.mem_singleton.mp hu
      trivial
  · rcases List.mem_append.mp hu with hu | hu
    · exact h.found u hu huc
    · obtain rfl := List.mem_singleton.mp hu
      cases huc
  · change st.nextEphLayerId - 1 < i
    rcases hcreating i hi with hi | rfl
    · have := h.creating_lt i hi
      omega
    · omega
  · obtain ⟨hlt, hc, hback⟩ := h.commit_lt r hr
    refine ⟨?_, fun hc' => ?_, hback⟩
    · change st.nextEphLayerId - 1 < r.layerId
      omega
    · rcases hcreating _ hc' with hc' | heq
      · exact hc hc'
      · omega
  · obtain ⟨hlt, hc⟩ := h.rolledBack_lt i hi
    refine ⟨?_, fun hc' => ?_⟩
    · change st.nextEphLayerId - 1 < i
      omega
    · rcases hcreating _ hc' with hc' | heq
      · exact hc hc'
      · omega

/-- A creator that commits has marked its row. -/
theorem commit (h : CacheInv P st) {layerId : ℤ} {t : EphTransaction ρ}
    (ht : st.creating layerId = some t) (hphase : t.phase = .populatedMarked) :
    CacheInv P { st.drop true layerId with
      store := { st.store with layers := st.store.layers ++ [t.layer] }
      contents := Function.update st.contents layerId t.results
      commits := st.commits ++ [⟨layerId, t.layer.hash, t.results, t.readAt⟩] } := by
  obtain ⟨hmem, htc, htid⟩ := mem_of_creating ht
  obtain ⟨hfull, htruncated, hpopulated⟩ :
      P.Full t.layer.hash t.results ∧ t.layer.truncated = P.truncated t.layer.hash t.results ∧
        t.layer.populated = true := by
    have := h.marked t hmem htc
    rwa [EphTransaction.Marked, hphase] at this
  have hlayers : ∀ l, l ∈ Store.ephemeralLayers { st.store with
      layers := st.store.layers ++ [t.layer] } ↔
        l ∈ st.store.ephemeralLayers ∨ (l = t.layer ∧ t.layer.kind.isProtected = false) := by
    intro l
    simp only [Store.ephemeralLayers, List.mem_filter, List.mem_append, List.mem_singleton]
    grind
  refine ⟨fun u hu huc => h.marked u (mem_drop.mp hu).1 huc,
    fun u hu huc => (hlayers _).mpr (Or.inl (h.found u (mem_drop.mp hu).1 huc)),
    fun l hl => ?_, fun s hs => ?_, fun i hi => h.creating_lt i (isCreating_of_drop hi),
    fun r hr => ?_, fun i hi => ?_⟩
  · rcases (hlayers l).mp hl with hl | ⟨rfl, -⟩
    · obtain ⟨hp, r, hr, hid, hhash, hf, hcontents, htr⟩ := h.populated l hl
      refine ⟨hp, r, List.mem_append_left _ hr, hid, hhash, hf, ?_, htr⟩
      -- the committed layers are not the one that was being created
      have hne : l.id ≠ layerId := by
        rintro heq
        exact (h.commit_lt r hr).2.1 ⟨t, hmem, htc, htid.trans (heq.symm.trans hid.symm)⟩
      exact (Function.update_of_ne hne ..).trans hcontents
    · refine ⟨hpopulated, _, List.mem_append_right _ (List.mem_singleton_self _), htid.symm, rfl,
        hfull, ?_, htruncated⟩
      rw [htid]
      exact Function.update_self ..
  · exact absurd hs (h.not_locked hmem s)
  · rcases List.mem_append.mp hr with hr | hr
    · obtain ⟨hlt, hc, hback⟩ := h.commit_lt r hr
      exact ⟨hlt, fun hc' => hc (isCreating_of_drop hc'), hback⟩
    · obtain rfl := List.mem_singleton.mp hr
      have his : st.IsCreating layerId := ⟨t, hmem, htc, htid⟩
      exact ⟨h.creating_lt layerId his, fun hc' => ne_of_isCreating_drop hc' rfl,
        fun hback => (h.rolledBack_lt layerId hback).2 his⟩
  · obtain ⟨hlt, hc⟩ := h.rolledBack_lt i hi
    exact ⟨hlt, fun hc' => hc (isCreating_of_drop hc')⟩

/-- A creator that is rolled back leaves no trace in the tables. -/
theorem rollback (h : CacheInv P st) {layerId : ℤ} {t : EphTransaction ρ}
    (ht : st.creating layerId = some t) :
    CacheInv P { st.drop true layerId with rolledBack := layerId :: st.rolledBack } := by
  obtain ⟨hmem, htc, htid⟩ := mem_of_creating ht
  have his : st.IsCreating layerId := ⟨t, hmem, htc, htid⟩
  refine ⟨fun u hu huc => h.marked u (mem_drop.mp hu).1 huc,
    fun u hu huc => h.found u (mem_drop.mp hu).1 huc, h.populated, fun s hs => ?_,
    fun i hi => h.creating_lt i (isCreating_of_drop hi), fun r hr => ?_, fun i hi => ?_⟩
  · exact absurd hs (h.not_locked hmem s)
  · obtain ⟨hlt, hc, hback⟩ := h.commit_lt r hr
    refine ⟨hlt, fun hc' => hc (isCreating_of_drop hc'), ?_⟩
    rw [List.mem_cons, not_or]
    exact ⟨fun heq => hc (heq ▸ his), hback⟩
  · rcases List.mem_cons.mp hi with rfl | hi
    · exact ⟨h.creating_lt _ his, fun hc' => ne_of_isCreating_drop hc' rfl⟩
    · obtain ⟨hlt, hc⟩ := h.rolledBack_lt i hi
      exact ⟨hlt, fun hc' => hc (isCreating_of_drop hc')⟩

/-- A call that has found its layer returns. -/
theorem returnHit (h : CacheInv P st) (layerId : ℤ) : CacheInv P (st.drop false layerId) := by
  refine ⟨fun u hu huc => h.marked u (mem_drop.mp hu).1 huc,
    fun u hu huc => h.found u (mem_drop.mp hu).1 huc, h.populated, fun s hs => ?_,
    fun i hi => h.creating_lt i (isCreating_of_drop hi), fun r hr => ?_, fun i hi => ?_⟩
  · obtain ⟨hnone, hlayers⟩ := h.locked s hs
    exact ⟨by simp [CacheState.drop, hnone], hlayers⟩
  · obtain ⟨hlt, hc, hback⟩ := h.commit_lt r hr
    exact ⟨hlt, fun hc' => hc (isCreating_of_drop hc'), hback⟩
  · obtain ⟨hlt, hc⟩ := h.rolledBack_lt i hi
    exact ⟨hlt, fun hc' => hc (isCreating_of_drop hc')⟩

/-- Collected layers are ones that no call has found. -/
theorem collect (h : CacheInv P st) (hlock : st.locked = none) {layerIds : List ℤ}
    (hfree : ∀ t ∈ st.transactions, t.created = false → t.layer.id ∉ layerIds) :
    CacheInv P { st with
      store := { st.store with layers := st.store.layers.filter fun l =>
        l.kind.isProtected || !layerIds.contains l.id } } := by
  have hlayers : ∀ l, l ∈ Store.ephemeralLayers { st.store with
      layers := st.store.layers.filter fun l => l.kind.isProtected || !layerIds.contains l.id } ↔
        l ∈ st.store.ephemeralLayers ∧ l.id ∉ layerIds := by
    intro l
    simp only [Store.ephemeralLayers, List.mem_filter, Bool.or_eq_true, Bool.not_eq_true',
      List.contains_eq_mem, decide_eq_false_iff_not]
    grind
  exact ⟨h.marked, fun t ht hc => (hlayers _).mpr ⟨h.found t ht hc, hfree t ht hc⟩,
    fun l hl => h.populated l ((hlayers l).mp hl).1, by simp [hlock], h.creating_lt, h.commit_lt,
    h.rolledBack_lt⟩

/-- **Every action keeps the invariant.** -/
theorem act (h : CacheInv P st) {a : CacheAction} {st' : CacheState ρ}
    (hact : st.act hashBytes P a = some st') : CacheInv P st' := by
  cases a with
  | request req =>
    obtain ⟨c, -, -, hlayers, rfl⟩ := request_of_act hact
    exact h.install hlayers
  | lock req =>
    obtain ⟨c, -, hlayers, hnone, rfl⟩ := lock_of_act hact
    refine ⟨h.marked, h.found, h.populated, ?_, h.creating_lt, h.commit_lt, h.rolledBack_lt⟩
    rintro s hs
    obtain rfl := Option.some.inj hs
    exact ⟨hnone, hlayers⟩
  | purge =>
    obtain ⟨s, hs, rfl⟩ := purge_of_act hact
    exact h.purge hs
  | openLayer call =>
    obtain ⟨hlock, ⟨row, hrow, rfl⟩ | ⟨row, hid, rfl⟩⟩ := openLayer_of_act hact
    · exact h.openFound hlock hrow
    · exact h.openCreated hlock hid
  | statement layerId =>
    obtain ⟨t, f, ht, hphase, -, rfl⟩ := statement_of_act hact
    obtain ⟨-, htc, htid⟩ := mem_of_creating ht
    exact h.update ht htc htid (by simp [EphTransaction.Marked, hphase])
  | bodyDone layerId =>
    obtain ⟨t, ht, hfull, rfl⟩ := bodyDone_of_act hact
    obtain ⟨-, htc, htid⟩ := mem_of_creating ht
    exact h.update ht htc htid ⟨hfull, rfl⟩
  | markTruncated layerId =>
    obtain ⟨t, truncated, ht, hphase, rfl⟩ := markTruncated_of_act hact
    obtain ⟨hmem, htc, htid⟩ := mem_of_creating ht
    have hmarked := h.marked t hmem htc
    rw [EphTransaction.Marked, hphase] at hmarked
    exact h.update ht htc htid hmarked
  | markPopulated layerId =>
    obtain ⟨t, ht, hphase, rfl⟩ := markPopulated_of_act hact
    obtain ⟨hmem, htc, htid⟩ := mem_of_creating ht
    have hmarked := h.marked t hmem htc
    rw [EphTransaction.Marked, hphase] at hmarked
    exact h.update ht htc htid ⟨hmarked.1, hmarked.2, rfl⟩
  | commit layerId =>
    obtain ⟨t, ht, hphase, rfl⟩ := commit_of_act hact
    exact h.commit ht hphase
  | rollback layerId =>
    obtain ⟨t, ht, rfl⟩ := rollback_of_act hact
    exact h.rollback ht
  | returnHit layerId =>
    obtain rfl := Option.some.inj hact
    exact h.returnHit layerId
  | collect layerIds =>
    obtain ⟨hlock, hfree, rfl⟩ := collect_of_act hact
    exact h.collect hlock hfree

end CacheInv

/-- **Two-phase population.**  Whatever creators, readers, failures, requests, purges and
collections do, a call that returns a layer as a hit returns one whose creator has committed
and was not rolled back, that holds the results of all its creator's statements, and whose
flag is the one its creator computed from them. -/
theorem hit_committed_of_run (hashBytes : Bytes → Text) (P : Populate ρ) (s : Store)
    {st : CacheState ρ}
    (hrun : ReflTransGen (CacheStep hashBytes P fun _ _ => true) (.initial s) st) :
    ∀ t ∈ st.transactions, t.outcome.created = false →
      t.layer.populated = true ∧ t.outcome.layerId ∉ st.rolledBack ∧
        ∃ r ∈ st.commits, r.layerId = t.outcome.layerId ∧ r.hash = t.layer.hash ∧
          r.results.length = (P.statements r.hash).length ∧
          st.contents t.outcome.layerId = r.results ∧
          t.outcome.truncated = P.truncated r.hash r.results := by
  have hinv : CacheInv P st := by
    refine Runs.invariant_of_run (I := CacheInv P) ?_ hrun (cacheInv_initial P s)
    rintro _ _ h ⟨a, -, hact⟩
    exact h.act hact
  intro t ht hcreated
  obtain ⟨hpop, r, hr, hid, hhash, hfull, hcontents, htruncated⟩ :=
    hinv.populated t.layer (hinv.found t ht hcreated)
  refine ⟨hpop, fun hback => (hinv.commit_lt r hr).2.2 (hid ▸ hback), r, hr, hid, hhash, ?_,
    hcontents, ?_⟩
  · rw [hhash]
    exact hfull
  · rw [hhash]
    exact htruncated

end Invariant

/-! ### Samples -/

/-- Take actions one after the other, as long as each can be taken and meets a guard. -/
def actAll {ρ : Type} (hashBytes : Bytes → Text) (P : Populate ρ)
    (guard : CacheState ρ → CacheAction → Bool) :
    CacheState ρ → List CacheAction → Option (CacheState ρ)
  | st, [] => some st
  | st, a :: as =>
    if guard st a then (st.act hashBytes P a).bind fun st' => actAll hashBytes P guard st' as
    else none

theorem run_of_actAll {ρ : Type} {hashBytes : Bytes → Text} {P : Populate ρ}
    {guard : CacheState ρ → CacheAction → Bool} {st st' : CacheState ρ} {as : List CacheAction}
    (h : actAll hashBytes P guard st as = some st') :
    ReflTransGen (CacheStep hashBytes P guard) st st' := by
  induction as generalizing st with
  | nil =>
    obtain rfl := Option.some.inj h
    exact .refl
  | cons a as ih =>
    rw [actAll] at h
    split at h
    · next hguard =>
      obtain ⟨st₁, hst₁, h⟩ := Option.bind_eq_some_iff.mp h
      exact .head ⟨a, hguard, hst₁⟩ (ih h)
    · cases h

/-- Layers that list the ids of all symbols, and are never cut off. -/
def symbolIds : Populate ℤ where
  statements _ := [fun rows => rows.symbols.map (·.id)]
  truncated _ _ := false

/-- A call below the root `2`. -/
def sampleCall : LayerCall := ⟨some 2, none, [1], .ephemeral⟩

/-- Create the layer of the sample call, whose id is drawn next. -/
def createSample (layerId : ℤ) : List CacheAction :=
  [.openLayer sampleCall, .statement layerId, .bodyDone layerId, .markTruncated layerId,
    .markPopulated layerId, .commit layerId]

/-- A creator is rolled back, the next one commits, and a third call finds its layer. -/
theorem hit_committed_of_retry : ∃ (st : CacheState ℤ) (t : EphTransaction ℤ),
    ReflTransGen (CacheStep (fun _ => []) symbolIds fun _ _ => true)
      (.initial (.initial [0])) st ∧ t ∈ st.transactions ∧
      t.outcome = ⟨-1000001, false, false⟩ ∧ st.rolledBack = [-1000000] ∧
      ∃ r ∈ st.commits, r.layerId = -1000001 ∧ r.results.length = 1 ∧
        st.contents (-1000001) = r.results := by
  obtain ⟨st, hrun, hobs⟩ := Option.map_eq_some_iff.mp (show
    (actAll (fun _ => []) symbolIds (fun _ _ => true) (.initial (.initial [0]))
      ([.openLayer sampleCall, .statement (-1000000), .rollback (-1000000)] ++
        createSample (-1000001) ++ [.openLayer sampleCall])).map (fun st =>
          (st.transactions.map (·.outcome), st.rolledBack)) =
      some ([⟨-1000001, false, false⟩], [-1000000]) by decide +kernel)
  obtain ⟨houtcomes, hback⟩ := Prod.mk.inj hobs
  obtain ⟨t, ht, hout⟩ := List.mem_map.mp (houtcomes ▸ List.mem_singleton_self _)
  have hsteps := run_of_actAll hrun
  obtain ⟨-, -, r, hr, hid, -, hlen, hcontents, -⟩ := hit_committed_of_run (fun _ => [])
    symbolIds (.initial [0]) hsteps t ht (by simp [hout])
  rw [hout] at hid hcontents
  exact ⟨st, t, hsteps, ht, hout, hback, r, hr, hid, hlen, hcontents⟩

end Askl
