import Askl.Query.Worklist

/-!
# The initial selections

Every statement computes its selectors' initial selections from the index.  Statements
are queued in visiting order and computed together; a statement that must see an
earlier layer, or whose layer refers to a label, waits until the queue has been drained.

## Main definitions

* `LayerStore` — how a statement's layers come to be, which the executor is handed.
* `computeSelector`, `computeSelected` — the initial selections of one statement.
* `computeRoots` — the initial selections of all of them.
* `computeNodes` — the initial selections, then the worklist.
* `Computed` — a statement whose selectors hold what was computed for them.

## Main results

* `computed_of_computeRoots` — **after the roots, every statement is computed.**
* `Computed.selection_eq_none` — unit, use and forced verbs start without a selection.
* `Computed.layer_mem` — a layer selector's nodes are instances of its own layers.
-/

namespace Askl

/-- The labels a layer refers to, with the symbols their statements selected. -/
abbrev LabelResolutions := AList fun _ : Text => List ℤ

/-- How the layers of a statement are materialised: one batch for every visible root,
given the layers seen and the labels resolved so far. -/
abbrev LayerStore (n : ℕ) :=
  Fin n → EphContext → LabelResolutions → Except ExecError (List LayerActivation)

variable {n : ℕ} (db : Database) (t : StatementTree n) (layers : LayerStore n)

/-! ### One selector -/

/-- What the computation of one selector gives. -/
structure SelectorResult where
  selection : Option Selection
  /-- What the selector writes into its cell. -/
  cell : Option Selection
  warnings : List Diagnostic

/-- The filter of a selector that matches a name. -/
def Command.nameFilter (c : Command) (f : CompositeFilter) : CompositeFilter :=
  .mkAnd [.mkAnd c.filterParts, f]

/-- `select_from_all_impl`: the selection of a selector, and the matches it caches. -/
def selectFromAll (c : Command) (parentScope childrenScope : ScopeContext) (eph : EphContext)
    (v : Verb) : Except IndexError (Option Selection × Option Selection) :=
  match v.kind with
  | .name f _ => (findSymbol db (c.nameFilter f) parentScope childrenScope eph).map
      fun s => (some s, none)
  | .select => (findSymbol db (.mkAnd c.filterParts) parentScope childrenScope eph).map
      fun s => (some s, none)
  | .type _ filterOnly _ _ _ =>
    if filterOnly then .ok (none, none)
    else (findSymbol db (.mkAnd c.filterParts) parentScope childrenScope eph).map
      fun s => (some s, none)
  | .forced f => (findSymbol db (c.nameFilter f) parentScope childrenScope eph).map
      fun s => (none, some s)
  | .isolatedScope => .ok (some .new, none)
  | _ => .ok (none, none)

/-- The selection of a layer selector: every instance of the layers its statement has
materialised, or none when there is none. -/
def selectFromLayers (parentScope childrenScope : ScopeContext) (eph : EphContext)
    (layerIds : List ℤ) : Except IndexError (Option Selection) :=
  let ids := getEphInstanceIdsForLayers db layerIds
  if ids.isEmpty then .ok none
  else (findSymbol db (.leaf (.symbolInstanceId ids)) parentScope childrenScope eph).map some

/-- The warning of a selector that matched nothing. -/
def warnIfEmpty (v : Verb) : Option Selection → List Diagnostic
  | none => []
  | some s => if s.nodes.isEmpty then [.noMatch v.span v.kind.matchedToken] else []

/-- The computation of one selector, once the layers of its statement exist. -/
def computeSelector (c : Command) (parentScope childrenScope : ScopeContext) (eph : EphContext)
    (layerIds : List ℤ) (v : Verb) : Except ExecError SelectorResult :=
  if v.kind.hasLayerSpec then
    if layerIds.isEmpty then .ok ⟨none, none, [.note v.span .producedNoLayers]⟩
    else match selectFromLayers db parentScope childrenScope eph layerIds with
      | .error e => .error (.index e)
      | .ok s => .ok ⟨s, none, warnIfEmpty v s⟩
  else match selectFromAll db c parentScope childrenScope eph v with
    | .error e => .error (.index e)
    | .ok (s, cell) => .ok ⟨s, cell, warnIfEmpty v s⟩

/-- The computation of a list of selectors, in order. -/
def computeSelectors (c : Command) (parentScope childrenScope : ScopeContext)
    (eph : EphContext) (layerIds : List ℤ) :
    List Verb → Except ExecError (List (Verb × SelectorResult))
  | [] => .ok []
  | v :: vs => match computeSelector db c parentScope childrenScope eph layerIds v with
    | .error e => .error e
    | .ok r => match computeSelectors c parentScope childrenScope eph layerIds vs with
      | .error e => .error e
      | .ok rs => .ok ((v, r) :: rs)

/-! ### One statement -/

/-- `ComputeResult`. -/
structure ComputeResult where
  selections : List (Verb × SelectorResult)
  warnings : List Diagnostic
  layerActivations : List LayerActivation

/-- The notes of the selectors that need a name filter where the command has none. -/
def nameNotes (c : Command) : List Diagnostic :=
  if c.verbs.any (·.kind.hasNameConstraint) then []
  else (c.selectors.filter (·.kind.requiresNameConstraint)).map
    fun v => .note v.span .selectRequiresName

/-- The one warning about truncated layers, from the first selector that has one. -/
def truncationWarnings (c : Command) (activations : List LayerActivation) : List Diagnostic :=
  if activations.any (·.truncated) then
    (c.selectors.find? (·.kind.isCapped)).toList.map fun v => .note v.span .truncated
  else []

/-- The layers of a statement, and the layers seen once they have joined the chains. -/
def materialise (c : Command) (i : Fin n) (eph : EphContext) (resolved : LabelResolutions) :
    Except ExecError (List LayerActivation × EphContext) :=
  if c.hasLayerSpec then match layers i eph resolved with
    | .error e => .error e
    | .ok activations =>
      match eph.pushRound (activations.map fun a => (a.rootId, a.layerId)) with
      | none => .error .layer
      | some eph' => .ok (activations, eph')
  else .ok ([], eph)

/-- `compute_selected`. -/
def computeSelected (i : Fin n) (parentScope childrenScope : ScopeContext) (eph : EphContext)
    (resolved : LabelResolutions) : Except ExecError ComputeResult :=
  let c := t.command i
  match materialise layers c i eph resolved with
  | .error e => .error e
  | .ok (activations, eph') =>
    match computeSelectors db c parentScope childrenScope eph' (activations.map (·.layerId))
        c.selectors with
    | .error e => .error e
    | .ok rs => .ok
        { selections := rs
          warnings := nameNotes c ++ truncationWarnings c activations ++
            rs.flatMap fun r => r.2.warnings
          layerActivations := activations }

/-- Enter one selector's result into the registry and its cell. -/
def applySelector (ctx : ExecutionContext n) (r : Verb × SelectorResult) : ExecutionContext n :=
  let ctx' := ctx.setSelection r.1.id r.2.selection
  match r.2.cell with
  | none => ctx'
  | some s => ctx'.setCell r.1.id s

/-- `ComputeResult::apply`; a round of layers that misses a root panics. -/
def ComputeResult.apply (r : ComputeResult) (ctx : ExecutionContext n) (i : Fin n) :
    Except ExecError (ExecutionContext n) :=
  let ctx' := ((r.selections.foldl applySelector ctx).warn i r.warnings)
  let ctx'' := { ctx' with
    layerActivations := Function.update ctx'.layerActivations i
      (ctx'.layerActivations i ++ r.layerActivations) }
  if r.layerActivations.isEmpty then .ok ctx''
  else match ctx.eph.pushRound (r.layerActivations.map fun a => (a.rootId, a.layerId)) with
    | none => .error .layer
    | some eph => .ok { ctx'' with eph := eph }

/-! ### All statements -/

/-- `PendingCompute`: a statement with everything its computation captured when it was
queued. -/
structure PendingCompute (n : ℕ) where
  statement : Fin n
  parentScope : ScopeContext
  childrenScope : ScopeContext
  eph : EphContext
  resolved : LabelResolutions

/-- The results of the queued computations; none is applied before all are there. -/
def joinAll : List (PendingCompute n) → Except ExecError (List (Fin n × ComputeResult))
  | [] => .ok []
  | p :: ps => match computeSelected db t layers p.statement p.parentScope p.childrenScope
      p.eph p.resolved with
    | .error e => .error e
    | .ok r => match joinAll ps with
      | .error e => .error e
      | .ok rs => .ok ((p.statement, r) :: rs)

/-- Apply results in the order they were queued. -/
def applyAll (ctx : ExecutionContext n) :
    List (Fin n × ComputeResult) → Except ExecError (ExecutionContext n)
  | [] => .ok ctx
  | (i, r) :: rs => match r.apply ctx i with
    | .error e => .error e
    | .ok ctx' => applyAll ctx' rs

/-- `drain_pending`. -/
def drainPending (pending : List (PendingCompute n)) (ctx : ExecutionContext n) :
    Except ExecError (ExecutionContext n) :=
  match joinAll db t layers pending with
  | .error e => .error e
  | .ok rs => applyAll ctx rs

/-- The statements whose labels a statement's layer refers to, with the labels. -/
def preSeedLabels (i : Fin n) : List (Fin n × Text) :=
  (t.command i).layerLabelRefs.eraseDups.flatMap fun l =>
    (t.labeledStatements l).eraseDups.map fun j => (j, l)

/-- Whether a statement waits for the statements queued before it. -/
def hasPreSeed (i : Fin n) : Bool :=
  !(preSeedLabels t i).isEmpty || (t.siblingEdges none t.topLevel).any fun p => p.2 = i

/-- The symbols the labels of a statement's layer stand for; a label whose statement has
no selection yet is left out. -/
def resolveLabels (ctx : ExecutionContext n) (i : Fin n) : LabelResolutions :=
  (preSeedLabels t i).foldl (fun resolved p => match getSelection t ctx p.1 with
    | none => resolved
    | some s => resolved.insert p.2 (canonicalIds (s.nodes.map (·.symbol.id)))) ∅

/-- Queue one statement, with the layers and scopes of the moment. -/
def pendingCompute (ctx : ExecutionContext n) (i : Fin n) : PendingCompute n where
  statement := i
  parentScope := buildParentScope t ctx i
  childrenScope := buildChildrenScope t ctx i
  eph := ctx.eph
  resolved := resolveLabels t ctx i

/-- The loop of `compute_roots` over the statements still to queue. -/
def computeRootsLoop : List (Fin n) → List (PendingCompute n) → ExecutionContext n →
    Except ExecError (ExecutionContext n)
  | [], pending, ctx => drainPending db t layers pending ctx
  | i :: is, pending, ctx =>
    if hasPreSeed t i then match drainPending db t layers pending ctx with
      | .error e => .error e
      | .ok ctx' => computeRootsLoop is [pendingCompute t ctx' i] ctx'
    else computeRootsLoop is (pending ++ [pendingCompute t ctx i]) ctx

/-- `ExecutionContext::new`. -/
def ExecutionContext.new (roots : List RootLayer) : ExecutionContext n where
  registry := ∅
  cached := ∅
  eph := .rooted roots
  warnings := fun _ => []
  layerActivations := fun _ => []

/-- `compute_roots`. -/
def computeRoots (roots : List RootLayer) : Except ExecError (ExecutionContext n) :=
  computeRootsLoop db t layers (List.finRange n) [] (.new roots)

/-- `compute_nodes`, once the graph has been built: the initial selections, then the
worklist. -/
def computeNodes (fuel : ℕ) (roots : List RootLayer) :
    Option (Except ExecError (ExecutionContext n)) :=
  match computeRoots db t layers roots with
  | .error e => some (.error e)
  | .ok ctx => runWorklist db t fuel ctx

/-! ### What a statement's computation leaves -/

/-- The selectors of a statement hold what was computed for them, from some scopes and
layers seen, and the statement's layers are the ones its computation materialised. -/
def Computed (ctx : ExecutionContext n) (i : Fin n) : Prop :=
  ∃ parentScope childrenScope eph, ∀ v ∈ t.selectors i, ∃ r,
    computeSelector db (t.command i) parentScope childrenScope eph
        ((ctx.layerActivations i).map (·.layerId)) v = .ok r ∧
      ctx.selection v.id = r.selection ∧ ctx.cell v.id = r.cell

/-- A statement whose computation has not been applied: its cells are empty and it has no
layers. -/
structure Fresh (ctx : ExecutionContext n) (i : Fin n) : Prop where
  cell : ∀ v ∈ t.selectors i, ctx.cell v.id = none
  layerActivations : ctx.layerActivations i = []

theorem computeSelectors_ok {c : Command} {parentScope childrenScope : ScopeContext}
    {eph : EphContext} {layerIds : List ℤ} {vs : List Verb} {rs : List (Verb × SelectorResult)}
    (h : computeSelectors db c parentScope childrenScope eph layerIds vs = .ok rs) :
    rs.map (·.1) = vs ∧ ∀ p ∈ rs,
      computeSelector db c parentScope childrenScope eph layerIds p.1 = .ok p.2 := by
  induction vs generalizing rs with
  | nil =>
    obtain rfl := Except.ok.inj h
    simp
  | cons v vs ih =>
    rw [computeSelectors] at h
    cases hv : computeSelector db c parentScope childrenScope eph layerIds v with
    | error e => simp [hv] at h
    | ok r =>
      cases hvs : computeSelectors db c parentScope childrenScope eph layerIds vs with
      | error e => simp [hv, hvs] at h
      | ok rs' =>
        obtain rfl : (v, r) :: rs' = rs := by simpa [hv, hvs] using h
        obtain ⟨hmap, hall⟩ := ih hvs
        exact ⟨by simp [hmap], by simpa using ⟨hv, fun a b hab => hall (a, b) hab⟩⟩

theorem applySelector_sameExcept (ctx : ExecutionContext n) (r : Verb × SelectorResult) :
    SameExcept {r.1.id} ctx (applySelector ctx r) := by
  unfold applySelector
  cases r.2.cell with
  | none => exact .setSelection ctx r.1.id _
  | some s => exact (SameExcept.setSelection ctx r.1.id _).trans (.setCell _ r.1.id s)

theorem applySelector_self {ctx : ExecutionContext n} {r : Verb × SelectorResult}
    (h : ctx.cell r.1.id = none) : (applySelector ctx r).selection r.1.id = r.2.selection ∧
      (applySelector ctx r).cell r.1.id = r.2.cell := by
  unfold applySelector
  cases hcell : r.2.cell with
  | none => simp [h]
  | some s => simp [ExecutionContext.cell_setCell, h]

theorem foldl_applySelector_sameExcept (ctx : ExecutionContext n)
    (rs : List (Verb × SelectorResult)) :
    SameExcept {id | ∃ p ∈ rs, p.1.id = id} ctx (rs.foldl applySelector ctx) := by
  induction rs generalizing ctx with
  | nil => exact .refl _ ctx
  | cons r rs ih =>
    refine ((applySelector_sameExcept ctx r).mono ?_).trans ((ih _).mono ?_)
    · rintro _ rfl
      exact ⟨r, List.mem_cons_self, rfl⟩
    · rintro _ ⟨p, hp, rfl⟩
      exact ⟨p, List.mem_cons_of_mem r hp, rfl⟩

/-- Results of selectors with different identities all arrive. -/
theorem foldl_applySelector {ctx : ExecutionContext n} {rs : List (Verb × SelectorResult)}
    (hnd : (rs.map (·.1.id)).Nodup) (hcell : ∀ p ∈ rs, ctx.cell p.1.id = none) :
    ∀ p ∈ rs, (rs.foldl applySelector ctx).selection p.1.id = p.2.selection ∧
      (rs.foldl applySelector ctx).cell p.1.id = p.2.cell := by
  induction rs generalizing ctx with
  | nil => simp
  | cons r rs ih =>
    rw [List.map_cons, List.nodup_cons] at hnd
    have hnot : ∀ p ∈ rs, p.1.id ≠ r.1.id := fun p hp heq =>
      hnd.1 (List.mem_map.mpr ⟨p, hp, heq⟩)
    have hfold := foldl_applySelector_sameExcept (applySelector ctx r) rs
    have hr : r.1.id ∉ {id | ∃ p ∈ rs, p.1.id = id} := by
      rintro ⟨p, hp, heq⟩
      exact hnot p hp heq
    intro p hp
    rw [List.foldl_cons]
    rcases List.mem_cons.mp hp with rfl | hp
    · rw [hfold.selection _ hr, hfold.cell _ hr]
      exact applySelector_self (hcell p List.mem_cons_self)
    · refine ih hnd.2 (fun q hq => ?_) p hp
      rw [(applySelector_sameExcept ctx r).cell q.1.id (hnot q hq)]
      exact hcell q (List.mem_cons_of_mem r hq)

/-- Applying a result leaves the other statements' layers alone. -/
theorem apply_eq {r : ComputeResult} {ctx ctx' : ExecutionContext n} {i : Fin n}
    (h : r.apply ctx i = .ok ctx') :
    (∀ id, ctx'.selection id = (r.selections.foldl applySelector ctx).selection id) ∧
      (∀ id, ctx'.cell id = (r.selections.foldl applySelector ctx).cell id) ∧
      ctx'.layerActivations = Function.update ctx.layerActivations i
        (ctx.layerActivations i ++ r.layerActivations) := by
  have hact := (foldl_applySelector_sameExcept ctx r.selections).layerActivations
  unfold ComputeResult.apply at h
  have hfold : (List.foldl applySelector ctx r.selections).layerActivations =
    ctx.layerActivations := hact
  dsimp only at h
  split at h
  · obtain rfl := Except.ok.inj h
    exact ⟨fun _ => rfl, fun _ => rfl, by simp [ExecutionContext.warn, hfold]⟩
  · split at h
    · cases h
    · obtain rfl := Except.ok.inj h
      exact ⟨fun _ => rfl, fun _ => rfl, by simp [ExecutionContext.warn, hfold]⟩

variable {db t layers}

/-- What a statement computes has been materialised, and its selectors have seen it. -/
theorem materialise_of_computeSelected {i : Fin n} {parentScope childrenScope : ScopeContext}
    {eph : EphContext} {resolved : LabelResolutions} {r : ComputeResult}
    (h : computeSelected db t layers i parentScope childrenScope eph resolved = .ok r) :
    ∃ eph', materialise layers (t.command i) i eph resolved = .ok (r.layerActivations, eph') ∧
      computeSelectors db (t.command i) parentScope childrenScope eph'
        (r.layerActivations.map (·.layerId)) (t.command i).selectors = .ok r.selections := by
  unfold computeSelected at h
  cases hm : materialise layers (t.command i) i eph resolved with
  | error e => simp [hm] at h
  | ok m =>
    obtain ⟨activations, eph'⟩ := m
    cases hs : computeSelectors db (t.command i) parentScope childrenScope eph'
        (activations.map (·.layerId)) (t.command i).selectors with
    | error e => simp [hm, hs] at h
    | ok rs =>
      simp only [hm, hs] at h
      obtain rfl := Except.ok.inj h
      exact ⟨eph', rfl, hs⟩

theorem computeSelected_ok {i : Fin n} {parentScope childrenScope : ScopeContext}
    {eph : EphContext} {resolved : LabelResolutions} {r : ComputeResult}
    (h : computeSelected db t layers i parentScope childrenScope eph resolved = .ok r) :
    r.selections.map (·.1) = t.selectors i ∧ ∃ eph', ∀ p ∈ r.selections,
      computeSelector db (t.command i) parentScope childrenScope eph'
        (r.layerActivations.map (·.layerId)) p.1 = .ok p.2 := by
  obtain ⟨eph', -, hs⟩ := materialise_of_computeSelected h
  obtain ⟨hmap, hall⟩ := computeSelectors_ok db hs
  exact ⟨hmap, eph', hall⟩

theorem computeSelector_unit {c : Command} {parentScope childrenScope : ScopeContext}
    {eph : EphContext} {layerIds : List ℤ} {v : Verb} (hv : v.kind = .unit) :
    computeSelector db c parentScope childrenScope eph layerIds v = .ok ⟨none, none, []⟩ := by
  simp [computeSelector, hv, VerbKind.hasLayerSpec, selectFromAll, warnIfEmpty]

/-- One application: its statement is computed, the others stay as they were. -/
theorem computed_apply {i : Fin n} {parentScope childrenScope : ScopeContext}
    {eph : EphContext} {resolved : LabelResolutions} {r : ComputeResult}
    {ctx ctx' : ExecutionContext n}
    (hr : computeSelected db t layers i parentScope childrenScope eph resolved = .ok r)
    (happly : r.apply ctx i = .ok ctx') (hfresh : Fresh t ctx i) :
    Computed db t ctx' i ∧ ∀ j, j ≠ i →
      (Computed db t ctx j → Computed db t ctx' j) ∧ (Fresh t ctx j → Fresh t ctx' j) := by
  obtain ⟨hmap, eph', hall⟩ := computeSelected_ok hr
  obtain ⟨hsel, hcell, hact⟩ := apply_eq happly
  have hmem : ∀ p ∈ r.selections, p.1 ∈ t.selectors i := fun p hp => by
    rw [← hmap]
    exact List.mem_map_of_mem hp
  have hnd : (r.selections.map (·.1.id)).Nodup := by
    have h := t.id_nodup i
    rwa [show (t.command i).selectors = r.selections.map (·.1) from hmap.symm,
      List.map_map] at h
  have hfold := foldl_applySelector hnd fun p hp =>
    hfresh.cell p.1 (hmem p hp)
  have hsame := foldl_applySelector_sameExcept ctx r.selections
  -- a selector of another statement is out of reach, or the shared unit verb
  have hother : ∀ j, j ≠ i → ∀ v ∈ t.selectors j,
      (ctx'.selection v.id = ctx.selection v.id ∧ ctx'.cell v.id = ctx.cell v.id) ∨
      (v.kind = .unit ∧ ctx'.selection v.id = none ∧ ctx'.cell v.id = none) := by
    intro j hj v hv
    rw [hsel, hcell]
    by_cases hid : ∃ p ∈ r.selections, p.1.id = v.id
    · obtain ⟨p, hp, hpid⟩ := hid
      obtain rfl := t.id_inj (hmem p hp) hv hpid
      have hunit := t.id_shared hv (hmem p hp) hj
      have hpr := hall p hp
      rw [computeSelector_unit hunit] at hpr
      have hp2 := Except.ok.inj hpr
      have := hfold p hp
      rw [← hp2] at this
      exact Or.inr ⟨hunit, this⟩
    · exact Or.inl ⟨hsame.selection _ hid, hsame.cell _ hid⟩
  refine ⟨⟨parentScope, childrenScope, eph', fun v hv => ?_⟩, fun j hj => ⟨?_, ?_⟩⟩
  · rw [← hmap] at hv
    obtain ⟨p, hp, rfl⟩ := List.mem_map.mp hv
    refine ⟨p.2, ?_, by rw [hsel]; exact (hfold p hp).1, by rw [hcell]; exact (hfold p hp).2⟩
    rw [hact, Function.update_self, hfresh.layerActivations, List.nil_append]
    exact hall p hp
  · rintro ⟨ps, cs, e, hj'⟩
    refine ⟨ps, cs, e, fun v hv => ?_⟩
    obtain ⟨rv, hrv, hs, hc⟩ := hj' v hv
    rw [hact, Function.update_of_ne hj]
    refine ⟨rv, hrv, ?_⟩
    rcases hother j hj v hv with ⟨h₁, h₂⟩ | ⟨hunit, h₁, h₂⟩
    · exact ⟨h₁.trans hs, h₂.trans hc⟩
    · rw [computeSelector_unit hunit] at hrv
      obtain rfl := Except.ok.inj hrv
      exact ⟨h₁, h₂⟩
  · intro hf
    refine ⟨fun v hv => ?_, by rw [hact, Function.update_of_ne hj, hf.layerActivations]⟩
    rcases hother j hj v hv with ⟨-, h₂⟩ | ⟨-, -, h₂⟩
    · rw [h₂, hf.cell v hv]
    · exact h₂

theorem drainPending_nil {ctx ctx' : ExecutionContext n}
    (h : drainPending db t layers [] ctx = .ok ctx') : ctx' = ctx :=
  (Except.ok.inj h).symm

/-- A drain that succeeds computes and applies the head of the queue, and goes on with the
rest. -/
theorem drainPending_cons {p : PendingCompute n} {ps : List (PendingCompute n)}
    {ctx ctx' : ExecutionContext n} (h : drainPending db t layers (p :: ps) ctx = .ok ctx') :
    ∃ r ctx₁, computeSelected db t layers p.statement p.parentScope p.childrenScope p.eph
        p.resolved = .ok r ∧
      r.apply ctx p.statement = .ok ctx₁ ∧ drainPending db t layers ps ctx₁ = .ok ctx' := by
  unfold drainPending at h ⊢
  rw [joinAll] at h
  cases hr : computeSelected db t layers p.statement p.parentScope p.childrenScope p.eph
      p.resolved with
  | error e => simp [hr] at h
  | ok r =>
    cases hps : joinAll db t layers ps with
    | error e => simp [hr, hps] at h
    | ok rs =>
      simp only [hr, hps] at h ⊢
      rw [applyAll] at h
      cases happly : r.apply ctx p.statement with
      | error e => simp [happly] at h
      | ok ctx₁ =>
        simp only [happly] at h
        exact ⟨r, ctx₁, rfl, happly, h⟩

/-- A drain: every queued statement is computed, the others stay as they were. -/
theorem computed_applyAll {ps : List (PendingCompute n)} {ctx ctx' : ExecutionContext n}
    (h : drainPending db t layers ps ctx = .ok ctx') (hnd : (ps.map (·.statement)).Nodup)
    (hfresh : ∀ p ∈ ps, Fresh t ctx p.statement) :
    (∀ p ∈ ps, Computed db t ctx' p.statement) ∧ ∀ j, j ∉ ps.map (·.statement) →
      (Computed db t ctx j → Computed db t ctx' j) ∧ (Fresh t ctx j → Fresh t ctx' j) := by
  induction ps generalizing ctx with
  | nil =>
    obtain rfl := drainPending_nil h
    simp
  | cons p ps ih =>
    obtain ⟨r, ctx₁, hr, happly, h⟩ := drainPending_cons h
    rw [List.map_cons, List.nodup_cons] at hnd
    obtain ⟨hp, hothers⟩ := computed_apply hr happly (hfresh p List.mem_cons_self)
    have hne : ∀ q ∈ ps, q.statement ≠ p.statement := fun q hq heq =>
      hnd.1 (List.mem_map.mpr ⟨q, hq, heq⟩)
    obtain ⟨hall, hkeep⟩ := ih h hnd.2 fun q hq => (hothers _ (hne q hq)).2
      (hfresh q (List.mem_cons_of_mem p hq))
    refine ⟨fun q hq => ?_, fun j hj => ?_⟩
    · rcases List.mem_cons.mp hq with rfl | hq
      · exact (hkeep _ hnd.1).1 hp
      · exact hall q hq
    · rw [List.map_cons, List.mem_cons, not_or] at hj
      exact ⟨fun hc => (hkeep j hj.2).1 ((hothers j hj.1).1 hc),
        fun hf => (hkeep j hj.2).2 ((hothers j hj.1).2 hf)⟩

/-- The loop: what is queued or still to queue is fresh, everything else computed. -/
theorem computed_loop {is : List (Fin n)} {pending : List (PendingCompute n)}
    {ctx ctx' : ExecutionContext n}
    (h : computeRootsLoop db t layers is pending ctx = .ok ctx')
    (hnd : (pending.map (·.statement) ++ is).Nodup)
    (hfresh : ∀ j ∈ pending.map (·.statement) ++ is, Fresh t ctx j)
    (hdone : ∀ j, j ∉ pending.map (·.statement) ++ is → Computed db t ctx j) :
    ∀ j, Computed db t ctx' j := by
  induction is generalizing pending ctx with
  | nil =>
    rw [computeRootsLoop] at h
    rw [List.append_nil] at hnd hfresh hdone
    obtain ⟨hall, hkeep⟩ := computed_applyAll h hnd
      fun p hp => hfresh _ (List.mem_map_of_mem hp)
    intro j
    by_cases hj : j ∈ pending.map (·.statement)
    · obtain ⟨p, hp, rfl⟩ := List.mem_map.mp hj
      exact hall p hp
    · exact (hkeep j hj).1 (hdone j hj)
  | cons i is ih =>
    rw [computeRootsLoop] at h
    split at h
    · -- the queue is drained first
      cases hdrain : drainPending db t layers pending ctx with
      | error e => simp [hdrain] at h
      | ok ctx₁ =>
        simp only [hdrain] at h
        obtain ⟨hnd₁, hnd₂, hdisj⟩ := List.nodup_append.mp hnd
        obtain ⟨hall, hkeep⟩ := computed_applyAll hdrain hnd₁
          fun p hp => hfresh _ (List.mem_append_left _ (List.mem_map_of_mem hp))
        refine ih h (by simpa [pendingCompute] using hnd₂) (fun j hj => ?_) fun j hj => ?_
        · have hj' : j ∈ i :: is := by simpa [pendingCompute] using hj
          exact (hkeep j fun hp => hdisj j hp j hj' rfl).2
            (hfresh j (List.mem_append_right _ hj'))
        · have hj' : j ∉ i :: is := by simpa [pendingCompute] using hj
          by_cases hp : j ∈ pending.map (·.statement)
          · obtain ⟨p, hpp, rfl⟩ := List.mem_map.mp hp
            exact hall p hpp
          · exact (hkeep j hp).1 (hdone j (by simpa [List.mem_append] using ⟨by simpa using hp,
              by simpa using hj'⟩))
    · have happ : (pending ++ [pendingCompute t ctx i]).map (·.statement) ++ is =
          pending.map (·.statement) ++ i :: is := by simp [pendingCompute]
      rw [← happ] at hnd hfresh hdone
      exact ih h hnd hfresh hdone

/-- **After the roots, every statement is computed.** -/
theorem computed_of_computeRoots {roots : List RootLayer} {ctx : ExecutionContext n}
    (h : computeRoots db t layers roots = .ok ctx) (i : Fin n) : Computed db t ctx i :=
  computed_loop h (by simpa using List.nodup_finRange n)
    (fun _ _ => ⟨fun _ _ => rfl, rfl⟩) (fun j hj => absurd (List.mem_finRange j) hj) i

/-! ### What the computed selectors hold -/

/-- The verbs whose initial selection is none: units, uses, forced verbs and type filters
without a name. -/
def VerbKind.startsEmpty : VerbKind → Bool
  | .unit => true
  | .use .. => true
  | .forced _ => true
  | .type _ filterOnly .. => filterOnly
  | _ => false

/-- The nodes read from layers are instances of these layers. -/
theorem selectFromLayers_mem {parentScope childrenScope : ScopeContext} {eph : EphContext}
    {layerIds : List ℤ} {s : Selection}
    (h : selectFromLayers db parentScope childrenScope eph layerIds = .ok (some s))
    {a : SelectionNode} (ha : a ∈ s.nodes) : ∃ inst ∈ db.symbolInstances,
      inst.layer ∈ layerIds ∧ a.symbolInstance = inst := by
  unfold selectFromLayers at h
  dsimp only at h
  split at h
  · cases h
  · cases hf : findSymbol db (.leaf (.symbolInstanceId (getEphInstanceIdsForLayers db layerIds)))
        parentScope childrenScope eph with
    | error e => simp [hf, Except.map] at h
    | ok s' =>
      obtain rfl : s' = s := by simpa [hf, Except.map] using h
      obtain ⟨hrow, hpass⟩ := findSymbol_nodes db hf ha
      have hinst := ((mem_currentRows db).mp hrow).2.1
      have hid : a.symbolInstance.id ∈ getEphInstanceIdsForLayers db layerIds := by
        simpa [CompositeFilter.composeCurrent, CompositeFilter.compose, FilterLeaf.currentExpr,
          Query.passes] using hpass
      obtain ⟨inst, hmem, heq⟩ := List.mem_map.mp hid
      obtain ⟨hmem, hlayer⟩ := List.mem_filter.mp hmem
      exact ⟨inst, hmem, by simpa using hlayer, db.instance_eq_of_id hinst hmem heq.symm⟩

namespace Computed

variable {ctx : ExecutionContext n} {i : Fin n} {v : Verb}

/-- Unit, use and forced verbs start without a selection. -/
theorem selection_eq_none (h : Computed db t ctx i) (hv : v ∈ t.selectors i)
    (hk : v.kind.startsEmpty = true) : ctx.selection v.id = none := by
  obtain ⟨ps, cs, eph, hall⟩ := h
  obtain ⟨r, hr, hsel, -⟩ := hall v hv
  rw [hsel]
  cases hkind : v.kind with
  | unit | use =>
    obtain rfl : (⟨none, none, []⟩ : SelectorResult) = r := by
      simpa [computeSelector, hkind, VerbKind.hasLayerSpec, selectFromAll, warnIfEmpty] using hr
    rfl
  | type f filterOnly named inherit token =>
    obtain rfl : filterOnly = true := by simpa [hkind, VerbKind.startsEmpty] using hk
    obtain rfl : (⟨none, none, []⟩ : SelectorResult) = r := by
      simpa [computeSelector, hkind, VerbKind.hasLayerSpec, selectFromAll, warnIfEmpty] using hr
    rfl
  | forced f =>
    cases hf : findSymbol db ((t.command i).nameFilter f) ps cs eph with
    | error e => simp [computeSelector, hkind, VerbKind.hasLayerSpec, selectFromAll, hf,
        Except.map] at hr
    | ok s =>
      obtain rfl : (⟨none, some s, []⟩ : SelectorResult) = r := by
        simpa [computeSelector, hkind, VerbKind.hasLayerSpec, selectFromAll, hf, Except.map,
          warnIfEmpty] using hr
      rfl
  | _ => simp [hkind, VerbKind.startsEmpty] at hk

/-- A use verb starts with nothing put aside. -/
theorem cell_eq_none (h : Computed db t ctx i) (hv : v ∈ t.selectors i)
    (hk : v.kind.asUse.isSome = true) : ctx.cell v.id = none := by
  obtain ⟨ps, cs, eph, hall⟩ := h
  obtain ⟨r, hr, -, hcell⟩ := hall v hv
  rw [hcell]
  cases hkind : v.kind with
  | use =>
    obtain rfl : (⟨none, none, []⟩ : SelectorResult) = r := by
      simpa [computeSelector, hkind, VerbKind.hasLayerSpec, selectFromAll, warnIfEmpty] using hr
    rfl
  | _ => simp [hkind, VerbKind.asUse] at hk

/-- **A layer selector's nodes** are instances of the layers its statement has
materialised. -/
theorem layer_mem (h : Computed db t ctx i) (hv : v ∈ t.selectors i)
    (hk : v.kind.hasLayerSpec = true) {s : Selection} (hs : ctx.selection v.id = some s)
    {a : SelectionNode} (ha : a ∈ s.nodes) : a.symbolInstance ∈ db.symbolInstances ∧
      ∃ l ∈ ctx.layerActivations i, a.symbolInstance.layer = l.layerId := by
  obtain ⟨ps, cs, eph, hall⟩ := h
  obtain ⟨r, hr, hsel, -⟩ := hall v hv
  rw [hsel] at hs
  unfold computeSelector at hr
  rw [if_pos hk] at hr
  split at hr
  · obtain rfl := Except.ok.inj hr
    cases hs
  · cases hl : selectFromLayers db ps cs eph ((ctx.layerActivations i).map (·.layerId)) with
    | error e => simp [hl] at hr
    | ok s' =>
      simp only [hl] at hr
      obtain rfl := Except.ok.inj hr
      obtain rfl : s' = some s := hs
      obtain ⟨inst, hinst, hlayer, hid⟩ := selectFromLayers_mem hl ha
      rw [hid]
      obtain ⟨l, hl, hll⟩ := List.mem_map.mp hlayer
      exact ⟨hinst, l, hl, hll.symm⟩

end Computed

/-! ### A small project -/

/-- A function `a` that calls a function `b`, and nothing in an ephemeral layer. -/
def callDatabase : Database :=
  .singleFile [.plain 1 ['a'], .plain 2 ['b']]
    [.plain 1 1 0 10 (.refl true), .plain 2 2 20 30 (.refl true)]
    [.plain 1 2 4 5 (.refl true)] (.refl true) (.refl true) (.refl true)

/-- A store for trees without layer verbs. -/
def noLayers : LayerStore n := fun _ _ _ => .ok []

/-- The filter of a plain name. -/
def nameFilter (name : Text) : CompositeFilter := .leaf (.leafName name)

/-- A verb of a sample query, found by its identity. -/
def Verb.plain (id : SelectorId) (kind : VerbKind) : Verb := ⟨id, ⟨id, id⟩, kind⟩

/-- A command of a sample query. -/
def Command.plain (verbs : List Verb) : Command := ⟨verbs, ⟨0, 0⟩⟩

end Askl
