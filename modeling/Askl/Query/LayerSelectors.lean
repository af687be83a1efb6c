import Askl.Query.ComputeRoots

/-!
# Layer selectors

A layer selector starts from the instances of the layers its own statement has
materialised.  A constraint keeps its nodes among them; a derivation does not, and a
layer without instances leaves the selector without a selection, so the next parent or
child that notifies it derives one.

## Main definitions

* `LayerNodes` — every layer selector holds instances of its statement's layers only.
* `layerSafe` — the notification under way finds no layer selector without a selection.

## Main results

* `layerNodes_step` — a step out of a safe state keeps the layer selectors' nodes.
* `layerNodes_of_run` — **a run of safe steps keeps them to its end.**
* `not_layerNodes_of_empty_layer` — a search that matches nothing, below a name.
-/

namespace Askl

variable {n : ℕ} (db : Database) (t : StatementTree n)

/-- Every node a layer selector has selected is an instance of a layer its statement has
materialised. -/
def LayerNodes (ctx : ExecutionContext n) : Prop :=
  ∀ i, ∀ v ∈ t.selectors i, v.kind.hasLayerSpec = true → ∀ s, ctx.selection v.id = some s →
    ∀ a ∈ s.nodes, a.symbolInstance ∈ db.symbolInstances ∧
      ∃ l ∈ ctx.layerActivations i, a.symbolInstance.layer = l.layerId

/-- Whether the layer selectors of a statement all have a selection. -/
def layersResolved (ctx : ExecutionContext n) (j : Fin n) : Bool :=
  (t.selectors j).all fun v => !v.kind.hasLayerSpec || (ctx.selection v.id).isSome

/-- Whether the notification under way, when it comes from a child or a parent and gets
past its gates, finds every layer selector of the notified statement with a selection. -/
def layerSafe (st : WorkState n) : Bool :=
  match st.queue with
  | [] => true
  | (i, d) :: _ => match d.role with
    | .parent => !constrainsParent t st.ctx d.statement || layersResolved t st.ctx d.statement
    | .child => (getSelection t st.ctx i).isNone || layersResolved t st.ctx d.statement
    | _ => true

variable {db t}

/-- A layer selector is no use verb. -/
theorem VerbKind.asUse_of_hasLayerSpec {k : VerbKind} (h : k.hasLayerSpec = true) :
    k.asUse = none := by
  cases k <;> simp_all [VerbKind.hasLayerSpec, VerbKind.asUse]

theorem layersResolved_iff {ctx : ExecutionContext n} {j : Fin n} :
    layersResolved t ctx j = true ↔
      ∀ v ∈ t.selectors j, v.kind.hasLayerSpec = true → (ctx.selection v.id).isSome = true := by
  simp only [layersResolved, List.all_eq_true, Bool.or_eq_true, Bool.not_eq_true']
  exact forall₂_congr fun v _ => by cases v.kind.hasLayerSpec <;> simp

section Turn

variable {ctx ctx' : ExecutionContext n} {j : Fin n} {v : Verb}

/-- A turn that leaves its selector alone, or constrains it, keeps the layer selectors'
nodes and their being resolved. -/
private theorem layerNodes_turn (hsame : SameExcept {v.id} ctx ctx') (hv : v ∈ t.selectors j)
    (hturn : v.kind.hasLayerSpec = true → ctx'.selection v.id = ctx.selection v.id ∨
      ∃ s s', ctx.selection v.id = some s ∧ ctx'.selection v.id = some s' ∧ s'.nodes ⊆ s.nodes)
    (h : LayerNodes db t ctx) :
    LayerNodes db t ctx' ∧ ∀ k, layersResolved t ctx k = true → layersResolved t ctx' k = true := by
  have hcases : ∀ k, ∀ w ∈ t.selectors k, w.kind.hasLayerSpec = true →
      ctx'.selection w.id = ctx.selection w.id ∨ ∃ s s', ctx.selection w.id = some s ∧
        ctx'.selection w.id = some s' ∧ s'.nodes ⊆ s.nodes := by
    intro k w hw hlayer
    by_cases hid : w.id = v.id
    · obtain rfl := t.id_inj hw hv hid
      exact hturn hlayer
    · exact Or.inl (hsame.selection w.id hid)
  refine ⟨fun k w hw hlayer s' hs' a ha => ?_, fun k hk => layersResolved_iff.mpr
    fun w hw hlayer => ?_⟩
  · rw [hsame.layerActivations]
    rcases hcases k w hw hlayer with heq | ⟨s, s'', hs, heq, hsub⟩
    · exact h k w hw hlayer s' (heq ▸ hs') a ha
    · obtain rfl := Option.some.inj (heq.symm.trans hs')
      exact h k w hw hlayer s hs a (hsub ha)
  · rcases hcases k w hw hlayer with heq | ⟨s, s'', -, heq, -⟩
    · rw [heq]
      exact layersResolved_iff.mp hk w hw hlayer
    · rw [heq]
      rfl

/-- Turns of a statement whose layer selectors have selections, each of which leaves such a
selector alone or constrains it. -/
private theorem layerNodes_runSelectors
    {f : Verb → ExecutionContext n → Except ExecError (Bool × ExecutionContext n)} {changed : Bool}
    (hturns : ∀ v ∈ t.selectors j, ∀ {b c c'}, f v c = .ok (b, c') → SameExcept {v.id} c c' ∧
      (v.kind.hasLayerSpec = true → (c.selection v.id).isSome = true →
        c'.selection v.id = c.selection v.id ∨ ∃ s s', c.selection v.id = some s ∧
          c'.selection v.id = some s' ∧ s'.nodes ⊆ s.nodes))
    (hrun : runSelectors f (t.selectors j) ctx = .ok (changed, ctx'))
    (hres : layersResolved t ctx j = true) (h : LayerNodes db t ctx) : LayerNodes db t ctx' := by
  refine (runSelectors_induction (R := fun _ c c' => LayerNodes db t c ∧
    layersResolved t c j = true → LayerNodes db t c' ∧ layersResolved t c' j = true)
    (fun _ h => h) (fun h h' hc => h' (h hc)) ?_ hrun ⟨h, hres⟩).1
  intro v hv _ c c' hf ⟨hc, hcres⟩
  obtain ⟨hsame, hkeep⟩ := hturns v hv hf
  obtain ⟨hnodes, hresolved⟩ := layerNodes_turn hsame hv
    (fun hlayer => hkeep hlayer (layersResolved_iff.mp hcres v hv hlayer)) hc
  exact ⟨hnodes, hresolved j hcres⟩

end Turn

/-- **One notification.**  Past the gates of a parent or a child it meets no layer
selector without a selection, and a provider does not address them. -/
theorem layerNodes_notify {ctx ctx' : ExecutionContext n} {i : Fin n}
    {d : StatementDependent n} {changed : Bool}
    (hnotify : notify db t ctx i d = .ok (changed, ctx'))
    (hsafe : d.role = .parent ∧ constrainsParent t ctx d.statement = true ∨
      d.role = .child ∧ (getSelection t ctx i).isSome = true →
      layersResolved t ctx d.statement = true)
    (h : LayerNodes db t ctx) : LayerNodes db t ctx' := by
  rcases notify_cases db t hnotify with ⟨-, rfl⟩ | ⟨hrole, merged, hall, hmerged, hrun⟩ |
    ⟨isUser, dependency, hrole, hget, hrun⟩
  · exact h
  · have hres := hsafe (Or.inl ⟨hrole, by simp [constrainsParent, hall, hmerged]⟩)
    refine layerNodes_runSelectors (fun v hv {_ c c'} hturn => ?_) hrun hres h
    have hturn := mergeSelector_turn db t hturn
    refine ⟨hturn.sameExcept, fun hlayer hsome => ?_⟩
    cases hturn with
    | constrained hsel => exact Or.inr ⟨_, _, hsel,
        ExecutionContext.selection_setSelection_self _ _ _,
        nodes_constrainSelection_subset _ _ _ _⟩
    | derived hsel _ => simp [hsel] at hsome
  · cases isUser with
    | true =>
      refine runSelectors_induction (R := fun _ c c' => LayerNodes db t c → LayerNodes db t c')
        (fun _ h => h) (fun h h' hc => h' (h hc)) ?_ hrun h
      intro v hv _ c c' hturn hc
      have hturn := acceptSelector_turn db t hturn
      refine (layerNodes_turn hturn.sameExcept hv (fun hlayer => ?_) hc).1
      have huse := VerbKind.asUse_of_hasLayerSpec hlayer
      cases hturn with
      | unaddressed => exact Or.inl rfl
      | skipped => exact Or.inl rfl
      | constrained _ hsel => exact Or.inr ⟨_, _, hsel,
          ExecutionContext.selection_setSelection_self _ _ _,
          nodes_constrainSelection_subset _ _ _ _⟩
      | provided haddr =>
        simp [Notification.addresses, notification, VerbKind.useLabel, huse] at haddr
      | derived huser => simp [notification] at huser
    | false =>
      have hres := hsafe (Or.inr ⟨hrole, by simp [hget]⟩)
      refine layerNodes_runSelectors (fun v hv {_ c c'} hturn => ?_) hrun hres h
      have hturn := acceptSelector_turn db t hturn
      refine ⟨hturn.sameExcept, fun hlayer hsome => ?_⟩
      cases hturn with
      | unaddressed => exact Or.inl rfl
      | skipped => exact Or.inl rfl
      | constrained _ hsel => exact Or.inr ⟨_, _, hsel,
          ExecutionContext.selection_setSelection_self _ _ _,
          nodes_constrainSelection_subset _ _ _ _⟩
      | provided _ _ huser => simp [notification] at huser
      | derived _ hsel _ =>
        have huse := VerbKind.asUse_of_hasLayerSpec hlayer
        rcases hsel with hsel | hforced
        · simp [hsel] at hsome
        · simp [VerbKind.isForcedUse, huse] at hforced

/-- A step out of a safe state keeps the layer selectors' nodes. -/
theorem layerNodes_step {st st' : WorkState n} (hsafe : layerSafe t st = true)
    (hstep : Step db t st st') (h : LayerNodes db t st.ctx) : LayerNodes db t st'.ctx := by
  cases hstep with
  | @pop st k i hqueue hget =>
    intro j v hv hlayer s hs a ha
    have hact : (st.pop t k i).ctx.layerActivations = st.ctx.layerActivations :=
      updateState_layerActivations st.ctx i
    rw [hact]
    refine h j v hv hlayer s ?_ a ha
    have hsel := updateState_selection (t := t) st.ctx i v.id
    rw [if_neg] at hsel
    · exact hsel ▸ hs
    · -- what a pop takes up is a forced use, not a layer selector
      rintro ⟨⟨w, hw, hid, hforced⟩, -⟩
      obtain rfl := t.id_inj hw hv hid
      simp [VerbKind.isForcedUse, VerbKind.asUse_of_hasLayerSpec hlayer] at hforced
  | @notify ctx ctx' worklist i d rest changed hnotify =>
    refine layerNodes_notify hnotify (fun hgate => ?_) h
    rcases hgate with ⟨hrole, hgate⟩ | ⟨hrole, hgate⟩
    · simpa [layerSafe, hrole, hgate] using hsafe
    · have hne : getSelection t ctx i ≠ none := by
        rintro heq
        simp [heq] at hgate
      simpa [layerSafe, hrole, hne] using hsafe

/-- **Layer selectors select what their layers hold**, at every point of a run whose
notifications find no layer selector without a selection. -/
theorem layerNodes_of_run {layers : LayerStore n} {roots : List RootLayer}
    {ctx : ExecutionContext n} (hroots : computeRoots db t layers roots = .ok ctx)
    {st : WorkState n}
    (hrun : Relation.ReflTransGen (Runs.Guarded (Step db t) fun st => layerSafe t st = true)
      (seed t ctx) st) :
    LayerNodes db t st.ctx := by
  refine Runs.invariant_of_run (I := fun st => LayerNodes db t st.ctx)
    (fun h hstep => layerNodes_step hstep.1 hstep.2 h) hrun ?_
  intro i v hv hlayer s hs a ha
  exact (computed_of_computeRoots hroots i).layer_mem hv hlayer hs ha

/-- A function `a`, and in an ephemeral layer a match inside of it. -/
def matchDatabase : Database :=
  .singleFile [.plain 1 ['a'], ⟨-1, ['h'], [['h']], 1, 1, ['h'], -1⟩]
    [.plain 1 1 0 10 (.refl true), ⟨-1, -1, 1, .bounded 4 5 (by decide), 1, -1⟩]
    [] (.refl true) (.refl true) (.refl true)

/-- `search("h") {}`. -/
def searchTree : StatementTree 2 :=
  .ofChecked
    (fun i => if i = 0 then .plain [.plain 0 (.layer [] true)] else .plain [.plain 1 .unit])
    (fun i => if i = 0 then none else some 0) ⟨true, true⟩ (by decide)

/-- The search creates the ephemeral layer `-1`. -/
def searchLayers : LayerStore 2 := fun _ _ _ => .ok [⟨1, -1, false⟩]

/-- A search with a match keeps to it until the run has finished. -/
theorem layerNodes_of_match : ∃ (ctx : ExecutionContext 2) (st : WorkState 2),
    computeRoots matchDatabase searchTree searchLayers [⟨1, 1⟩] = .ok ctx ∧ st.Finished ∧
      ((st.ctx.selection 0).map fun s => s.nodes.map (·.symbolInstance.id)) = some [-1] ∧
      LayerNodes matchDatabase searchTree st.ctx := by
  obtain ⟨ctx, hctx, hobs⟩ := exists_ok_of_map
    (x := some (computeRoots matchDatabase searchTree searchLayers [⟨1, 1⟩]))
    (f := fun ctx => (runWorklistIf matchDatabase searchTree (layerSafe searchTree) 20
      ctx).map fun r => r.map fun r => r.toOption.map fun ctx =>
        (ctx.selection 0).map fun s => s.nodes.map (·.symbolInstance.id))
    (b := some (some (some (some [-1])))) (by decide +kernel)
  obtain ⟨r, hr, hobs⟩ := Option.map_eq_some_iff.mp hobs
  obtain ⟨ctx', rfl, hnodes⟩ := exists_ok_of_map hobs
  obtain ⟨st, hrun, hfin, rfl⟩ := exists_run_of_runWorklistIf _ _ hr
  have hroots := Option.some.inj hctx
  exact ⟨ctx, st, hroots, hfin, hnodes,
    layerNodes_of_run hroots (Runs.guarded_mono (step_of_advance _ _) hrun)⟩

/-! ### A search that matches nothing -/

/-- `"a" { search("zzz") }`. -/
def searchBelowTree : StatementTree 2 :=
  .ofChecked
    (fun i => if i = 0 then .plain [.plain 0 (.name (nameFilter ['a']) (some ['a']))]
      else .plain [.plain 1 (.layer [] true)])
    (fun i => if i = 0 then none else some 0) ⟨true, true⟩ (by decide)

/-- **A search below a name selects what the name calls**: its empty layer left it
without a selection, and its parent derived one from the root layer. -/
theorem not_layerNodes_of_empty_layer : ∃ ctx,
    computeNodes callDatabase searchBelowTree searchLayers 20 [⟨1, 1⟩] = some (.ok ctx) ∧
      ¬LayerNodes callDatabase searchBelowTree ctx := by
  obtain ⟨ctx, hctx, hobs⟩ := exists_ok_of_map
    (x := computeNodes callDatabase searchBelowTree searchLayers 20 [⟨1, 1⟩])
    (f := fun ctx => ((ctx.selection 1).map fun s => s.nodes.map (·.symbolInstance.layer),
      (ctx.layerActivations 1).map (·.layerId))) (b := (some [1], [-1])) (by decide +kernel)
  obtain ⟨hsel, hact⟩ := Prod.mk.inj hobs
  obtain ⟨s, hs, hnodes⟩ := Option.map_eq_some_iff.mp hsel
  refine ⟨ctx, hctx, fun h => ?_⟩
  have hmem : (1 : ℤ) ∈ s.nodes.map (·.symbolInstance.layer) := by simp [hnodes]
  obtain ⟨a, ha, hlayer⟩ := List.mem_map.mp hmem
  obtain ⟨-, l, hl, hal⟩ := h 1 (.plain 1 (.layer [] true)) List.mem_cons_self rfl s hs a ha
  have hl' : l.layerId ∈ (ctx.layerActivations 1).map (·.layerId) := List.mem_map_of_mem hl
  rw [hact, ← hal, hlayer] at hl'
  simp at hl'

end Askl
