import Askl.Query.ComputeRoots

/-!
# Selected nodes are rows

Whatever a selector has selected, and whatever its cell has put aside, was loaded from the
database: derivations load, constraints and uses only pass nodes and edges on.

## Main definitions

* `SelectedRows` — every node of a selector, and of its cell, is a joined row.
* `Selection.Stored` — and so are the rows of the edges a selection has recorded.

## Main results

* `stored_of_findSymbol` — what is loaded is stored.
* `storedSelections_of_run` — **and so is what any run selects.**
* `selectedRows_of_run` — in particular the nodes are rows.
-/

namespace Askl

open Relation

variable {n : ℕ} (db : Database) (t : StatementTree n)

/-- Every node of a selector, and every node its cell has put aside, is a joined row. -/
structure SelectedRows (ctx : ExecutionContext n) : Prop where
  selection : ∀ {i}, ∀ v ∈ t.selectors i, ∀ s, ctx.selection v.id = some s →
    ∀ a ∈ s.nodes, a ∈ currentRows db
  cell : ∀ {i}, ∀ v ∈ t.selectors i, ∀ s, ctx.cell v.id = some s →
    ∀ a ∈ s.nodes, a ∈ currentRows db

/-- Both instances of a reference are stored, and so is the reference, unless it is fabricated
at the place of the instance it comes from. -/
structure ParentReference.Stored (r : ParentReference) : Prop where
  toInstance : r.toInstance ∈ db.symbolInstances
  fromInstance : r.fromInstance ∈ db.symbolInstances
  symbolRef : r.symbolRef ∈ db.symbolRefs ∨
    r.symbolRef.fromOffsetRange = r.fromInstance.offsetRange

/-- Both instances of a reference are stored, and so is the reference. -/
structure ChildReference.Stored (r : ChildReference) : Prop where
  symbolInstance : r.symbolInstance ∈ db.symbolInstances
  fromInstance : r.fromInstance ∈ db.symbolInstances
  symbolRef : r.symbolRef ∈ db.symbolRefs

/-- The nodes of a selection are joined rows, and the rows of its recorded edges are stored. -/
structure Selection.Stored (s : Selection) : Prop where
  nodes : ∀ a ∈ s.nodes, a ∈ currentRows db
  parents : ∀ r ∈ s.parents, r.Stored db
  children : ∀ r ∈ s.children, r.Stored db
  hasParents : ∀ h ∈ s.hasParents,
    h.childInstance ∈ db.symbolInstances ∧ h.parentInstance ∈ db.symbolInstances
  hasChildren : ∀ h ∈ s.hasChildren,
    h.parentInstance ∈ db.symbolInstances ∧ h.childInstance ∈ db.symbolInstances

/-- The selection of every selector, and what its cell has put aside, is stored. -/
structure StoredSelections (ctx : ExecutionContext n) : Prop where
  selection : ∀ {i}, ∀ v ∈ t.selectors i, ∀ s, ctx.selection v.id = some s → s.Stored db
  cell : ∀ {i}, ∀ v ∈ t.selectors i, ∀ s, ctx.cell v.id = some s → s.Stored db

variable {db t}

/-! ### Stored selections -/

namespace Selection

theorem Stored.new : Selection.new.Stored db :=
  ⟨List.forall_mem_nil _, List.forall_mem_nil _, List.forall_mem_nil _, List.forall_mem_nil _,
    List.forall_mem_nil _⟩

theorem Stored.extend {s s' : Selection} (h : s.Stored db) (h' : s'.Stored db) :
    (s.extend s').Stored db where
  nodes := List.forall_mem_append.mpr ⟨h.nodes, h'.nodes⟩
  parents := List.forall_mem_append.mpr ⟨h.parents, h'.parents⟩
  children := List.forall_mem_append.mpr ⟨h.children, h'.children⟩
  hasParents := List.forall_mem_append.mpr ⟨h.hasParents, h'.hasParents⟩
  hasChildren := List.forall_mem_append.mpr ⟨h.hasChildren, h'.hasChildren⟩

/-- A constraint drops nodes only. -/
theorem Stored.constrain {s : Selection} (h : s.Stored db) (dependency : Selection)
    (role : DependencyRole) (rel : RelationshipType) :
    (constrainSelection dependency role rel s).Stored db where
  nodes a ha := h.nodes a (nodes_constrainSelection_subset _ _ _ _ ha)
  parents := h.parents
  children := h.children
  hasParents := h.hasParents
  hasChildren := h.hasChildren

/-- The fabricated references join nodes of stored selections. -/
theorem Stored.forced {parent matched : Selection} (h : matched.Stored db)
    (hparent : parent.Stored db) : (forcedSelection parent matched).Stored db where
  nodes := h.nodes
  parents r hr := by
    obtain ⟨p, hp, hr⟩ := List.mem_flatMap.mp hr
    obtain ⟨c, hc, rfl⟩ := List.mem_map.mp hr
    exact ⟨((mem_currentRows db).mp (h.nodes c hc)).2.1,
      ((mem_currentRows db).mp (hparent.nodes p hp)).2.1, Or.inr rfl⟩
  children := h.children
  hasParents := h.hasParents
  hasChildren := h.hasChildren

end Selection

/-! ### Loaded selections -/

theorem parentsRows_of_parentsQuery {f : CompositeFilter} {ids : List ℤ}
    {scopeIds : Option (List ℤ)} {vis : VisibilitySpec} {r : ParentsRow}
    (h : r ∈ (parentsQuery db f ids scopeIds vis).rows) : r ∈ parentsRows db := by
  simp only [parentsQuery, buildParentsQuery, Query.rows_guard, Query.rows_filterOpt,
    Query.rows_pred, Query.rows_filter, Query.rows_ofRows, List.mem_filter, and_assoc] at h
  exact h.1

theorem childrenRows_of_childrenQuery {f : CompositeFilter} {ids : List ℤ}
    {scopeIds : Option (List ℤ)} {vis : VisibilitySpec} {r : ChildrenRow}
    (h : r ∈ (childrenQuery db f ids scopeIds vis).rows) : r ∈ childrenRows db := by
  simp only [childrenQuery, buildChildrenQuery, Query.rows_guard, Query.rows_filterOpt,
    Query.rows_pred, Query.rows_filter, Query.rows_ofRows, List.mem_filter, and_assoc] at h
  exact h.1

theorem hasParentsRows_of_hasParentsQuery {f : CompositeFilter} {ids : List ℤ}
    {vis : VisibilitySpec} {r : HasParentsRow} (h : r ∈ (hasParentsQuery db f ids vis).rows) :
    r ∈ hasParentsRows db := by
  simp only [hasParentsQuery, buildHasParentsQuery, Query.rows_guard, Query.rows_filterOpt,
    Query.rows_pred, Query.rows_filter, Query.rows_ofRows, List.mem_filter, and_assoc] at h
  exact h.1

theorem hasChildrenRows_of_buildHasChildrenInner {p : HasChildrenRow → Bool}
    {vis : VisibilitySpec} {r : HasChildrenRow}
    (h : r ∈ (buildHasChildrenInner db vis p).rows) : r ∈ hasChildrenRows db := by
  simp only [buildHasChildrenInner, Query.rows_pred, Query.rows_filter, Query.rows_ofRows,
    List.mem_filter, and_assoc] at h
  exact h.1

/-- Whichever form of the query selects a has-children row, the row is a joined one. -/
theorem hasChildrenRows_of_selectHasChildren {f : CompositeFilter} {ids : List ℤ}
    {eph : EphContext} {r : HasChildrenRow} (h : r ∈ selectHasChildren db f ids eph) :
    r ∈ hasChildrenRows db := by
  obtain ⟨vis, hvis⟩ := mem_of_mem_load h
  split at hvis
  · simp only [hasChildrenQuery, buildHasChildrenQuery, Query.rows_guard, Query.rows_filterOpt,
      List.mem_filter, and_assoc] at hvis
    exact hasChildrenRows_of_buildHasChildrenInner hvis.1
  · simp only [cteHasChildrenQuery, Query.rows_guard, List.mem_filter] at hvis
    exact hasChildrenRows_of_buildHasChildrenInner hvis.1

theorem stored_of_parentsRows {r : ParentsRow} (h : r ∈ parentsRows db) :
    r.toReference.Stored db := by
  obtain ⟨href, -, hinstance, hdecl, -⟩ := (mem_parentsRows db).mp h
  exact ⟨hinstance, hdecl, Or.inl href⟩

theorem stored_of_childrenRows {r : ChildrenRow} (h : r ∈ childrenRows db) :
    r.toReference.Stored db := by
  obtain ⟨⟨row, object⟩, hjoin, rfl⟩ := List.mem_map.mp h
  obtain ⟨href, -, hinstance, hdecl, -⟩ := (mem_parentsRows db).mp (Keyed.mem_join.mp hjoin).1
  exact ⟨hinstance, hdecl, href⟩

theorem stored_of_hasParentsRows {r : HasParentsRow} (h : r ∈ hasParentsRows db) :
    r.symbolInstance ∈ db.symbolInstances ∧ r.containerInstance ∈ db.symbolInstances := by
  obtain ⟨⟨contained, container⟩, hjoin, rfl⟩ := List.mem_map.mp h
  obtain ⟨hcontained, hcontainer, -⟩ := Keyed.mem_join.mp hjoin
  exact ⟨((mem_typedInstances db).mp hcontained).1, ((mem_typedInstances db).mp hcontainer).1⟩

theorem stored_of_hasChildrenRows {r : HasChildrenRow} (h : r ∈ hasChildrenRows db) :
    r.symbolInstance ∈ db.symbolInstances ∧ r.containedInstance ∈ db.symbolInstances := by
  obtain ⟨⟨⟨container, object⟩, contained⟩, hjoin, rfl⟩ := List.mem_map.mp h
  obtain ⟨hcontainer, hcontained, -⟩ := Keyed.mem_join.mp hjoin
  exact ⟨((mem_typedInstances db).mp (Keyed.mem_join.mp hcontainer).1).1,
    ((mem_typedInstances db).mp hcontained).1⟩

/-- What is loaded is stored. -/
theorem stored_of_findSymbol {f : CompositeFilter} {parentScope childrenScope : ScopeContext}
    {eph : EphContext} {s : Selection}
    (h : findSymbol db f parentScope childrenScope eph = .ok s) : s.Stored db := by
  refine ⟨fun a ha => (findSymbol_nodes db h ha).1, fun r hr => ?_, fun r hr => ?_,
    fun r hr => ?_, fun r hr => ?_⟩
  all_goals rw [findSymbol_eq db h] at hr
  · obtain ⟨row, hrow, rfl⟩ := List.mem_map.mp hr
    split at hrow
    · cases hrow
    · obtain ⟨vis, hvis⟩ := mem_of_mem_load hrow
      exact stored_of_parentsRows (parentsRows_of_parentsQuery hvis)
  · obtain ⟨row, hrow, rfl⟩ := List.mem_map.mp ((List.mem_insertionSort _).mp hr)
    split at hrow
    · cases hrow
    · obtain ⟨vis, hvis⟩ := mem_of_mem_load hrow
      exact stored_of_childrenRows (childrenRows_of_childrenQuery hvis)
  · obtain ⟨row, hrow, rfl⟩ := List.mem_map.mp hr
    obtain ⟨vis, hvis⟩ := mem_of_mem_load hrow
    exact stored_of_hasParentsRows (hasParentsRows_of_hasParentsQuery hvis)
  · obtain ⟨row, hrow, rfl⟩ := List.mem_map.mp ((List.mem_insertionSort _).mp hr)
    exact stored_of_hasChildrenRows (hasChildrenRows_of_selectHasChildren hrow)

/-! ### Turns -/

namespace StoredSelections

variable {ctx ctx' : ExecutionContext n}

/-- The selection of a statement is stored. -/
theorem getSelection (h : StoredSelections db t ctx) {i : Fin n} {s : Selection}
    (hs : getSelection t ctx i = some s) : s.Stored db :=
  gather_induction Selection.Stored.extend h.selection hs

theorem selectedRows (h : StoredSelections db t ctx) : SelectedRows db t ctx where
  selection v hv s hs := (h.selection v hv s hs).nodes
  cell v hv s hs := (h.cell v hv s hs).nodes

/-- A turn that leaves stored selections in its own selector and cell leaves them
everywhere. -/
theorem of_sameExcept (h : StoredSelections db t ctx) {v : Verb}
    (hsame : SameExcept {v.id} ctx ctx')
    (hsel : ∀ s, ctx'.selection v.id = some s → s.Stored db)
    (hcell : ∀ s, ctx'.cell v.id = some s → s.Stored db) : StoredSelections db t ctx' where
  selection {i} w hw s hs := by
    by_cases hid : w.id = v.id
    · exact hsel s (hid ▸ hs)
    · exact h.selection w hw s (hsame.selection w.id hid ▸ hs)
  cell {i} w hw s hs := by
    by_cases hid : w.id = v.id
    · exact hcell s (hid ▸ hs)
    · exact h.cell w hw s (hsame.cell w.id hid ▸ hs)

/-- Whatever a parent's notification derives is loaded, or was put aside. -/
theorem deriveFromParent {nt : Notification n} {v : Verb} {j : Fin n}
    (h : StoredSelections db t ctx) (hv : v ∈ t.selectors j) {sel : Option Selection}
    (hderive : deriveFromParent db t ctx nt v = .ok sel) {s : Selection} (hs : sel = some s) :
    s.Stored db := by
  have hforced : deriveForced t ctx nt v = some s → s.Stored db := by
    unfold deriveForced
    intro hd
    split at hd
    · cases hd
    · next parent hparent =>
      split at hd
      · exact Option.some.inj hd ▸ Selection.Stored.new
      · next matched hcell =>
        exact Option.some.inj hd ▸ (h.cell v hv matched hcell).forced (h.getSelection hparent)
  have hchildren : deriveChildren db t ctx nt = .ok (some s) → s.Stored db := by
    unfold deriveChildren
    intro hd
    split at hd
    · cases hd
    · rw [liftIndex_eq_ok] at hd
      obtain ⟨ids, -, hd⟩ := Fallible.bind_eq_ok.mp hd
      obtain ⟨s', hload, hd⟩ := Fallible.bind_eq_ok.mp hd
      obtain rfl : s' = s := by simpa [pure, Except.pure] using hd
      exact stored_of_findSymbol hload
  subst hs
  unfold Askl.deriveFromParent at hderive
  split at hderive
  · exact hforced (Except.ok.inj hderive)
  · cases hderive
  · split at hderive
    · exact hforced (Except.ok.inj hderive)
    · exact hchildren hderive

/-- What a provider's notification hands on, or puts aside, is the provider's. -/
theorem deriveFromProvider (h : StoredSelections db t ctx) (nt : Notification n) {v : Verb}
    {j : Fin n} (hv : v ∈ t.selectors j) :
    (∀ s, (deriveFromProvider t ctx nt v).1 = some s → s.Stored db) ∧
      ∀ s, (deriveFromProvider t ctx nt v).2.cell v.id = some s → s.Stored db := by
  unfold Askl.deriveFromProvider
  split
  · exact ⟨fun _ => nofun, h.cell v hv⟩
  · next provider hget =>
    split
    · refine ⟨fun _ => nofun, fun s hs => ?_⟩
      rw [ExecutionContext.cell_setCell, if_pos rfl] at hs
      cases hc : ctx.cell v.id with
      | none =>
        obtain rfl : provider = s := by simpa [hc] using hs
        exact h.getSelection hget
      | some s' =>
        obtain rfl : s' = s := by simpa [hc] using hs
        exact h.cell v hv s' hc
    · refine ⟨fun s hs => ?_, h.cell v hv⟩
      exact Option.some.inj hs ▸ h.getSelection hget

theorem acceptTurn {nt : Notification n} {v : Verb} {j : Fin n} {changed : Bool}
    (h : StoredSelections db t ctx) (hv : v ∈ t.selectors j)
    (hturn : AcceptTurn db t nt v ctx changed ctx') : StoredSelections db t ctx' := by
  have hsame := hturn.sameExcept
  cases hturn with
  | unaddressed => exact h
  | skipped => exact h
  | @constrained s ws _ hsel _ _ =>
    refine h.of_sameExcept hsame (fun s' hs' => ?_) (h.cell v hv)
    rw [ExecutionContext.selection_warn, ExecutionContext.selection_setSelection_self] at hs'
    exact Option.some.inj hs' ▸ (h.selection v hv s hsel).constrain _ _ _
  | provided _ hsel _ =>
    obtain ⟨hprovider, hcell⟩ := h.deriveFromProvider nt hv
    refine h.of_sameExcept hsame (fun s hs => ?_) (by simpa using hcell)
    rw [ExecutionContext.selection_setSelection_self] at hs
    exact hprovider s hs
  | derived _ _ hderive =>
    refine h.of_sameExcept hsame (fun s hs => ?_) (h.cell v hv)
    rw [ExecutionContext.selection_setSelection_self] at hs
    exact h.deriveFromParent hv hderive hs

theorem mergeTurn {j : Fin n} {merged : Selection} {rel : RelationshipType}
    {parentScope : ScopeContext} {v : Verb} {changed : Bool} (h : StoredSelections db t ctx)
    (hv : v ∈ t.selectors j)
    (hturn : MergeTurn db t j merged rel parentScope v ctx changed ctx') :
    StoredSelections db t ctx' := by
  have hsame := hturn.sameExcept
  cases hturn with
  | @constrained s ws hsel =>
    refine h.of_sameExcept hsame (fun s' hs' => ?_) (h.cell v hv)
    rw [ExecutionContext.selection_warn, ExecutionContext.selection_setSelection_self] at hs'
    exact Option.some.inj hs' ▸ (h.selection v hv s hsel).constrain _ _ _
  | @derived sel _ hderive =>
    refine h.of_sameExcept hsame (fun s hs => ?_) (h.cell v hv)
    rw [ExecutionContext.selection_setSelection_self] at hs
    obtain rfl := Option.some.inj hs
    unfold deriveFromChildren at hderive
    rw [liftIndex_eq_ok] at hderive
    obtain ⟨ids, -, hload⟩ := Fallible.bind_eq_ok.mp hderive
    exact stored_of_findSymbol hload

/-- A step leaves stored selections. -/
theorem step {st st' : WorkState n} (h : StoredSelections db t st.ctx)
    (hstep : Step db t st st') : StoredSelections db t st'.ctx := by
  cases hstep with
  | @pop st k i _ _ =>
    refine ⟨fun v hv s hs => ?_, fun v hv s hs => ?_⟩
    · rw [show (st.pop t k i).ctx.selection v.id = _ from updateState_selection st.ctx i v.id] at hs
      split at hs
      · exact h.cell v hv s hs
      · exact h.selection v hv s hs
    · rw [show (st.pop t k i).ctx.cell = _ from updateState_cell st.ctx i] at hs
      exact h.cell v hv s hs
  | notify hnotify =>
    exact notify_induction
      (R := fun _ ctx ctx' => StoredSelections db t ctx → StoredSelections db t ctx')
      db t (fun _ h => h) (fun h h' hc => h' (h hc))
      (fun _ _ _ hv _ _ _ hturn hc => hc.mergeTurn hv hturn)
      (fun _ _ _ _ _ hv _ _ _ hturn hc => hc.acceptTurn hv hturn) hnotify h

end StoredSelections

/-! ### Runs -/

/-- What is computed of a selection that is loaded. -/
theorem exists_stored_of_map {α : Type} {f : CompositeFilter}
    {parentScope childrenScope : ScopeContext} {eph : EphContext} {g : Selection → α} {q : α}
    (hq : (findSymbol db f parentScope childrenScope eph).map g = .ok q) :
    ∃ s, g s = q ∧ s.Stored db := by
  obtain ⟨s, hs, rfl⟩ := Fallible.map_eq_ok.mp hq
  exact ⟨s, rfl, stored_of_findSymbol hs⟩

/-- What a selector selects from the whole index, or puts aside, is loaded. -/
theorem stored_of_selectFromAll {c : Command} {parentScope childrenScope : ScopeContext}
    {eph : EphContext} {v : Verb} {q : Option Selection × Option Selection}
    (hq : selectFromAll db c parentScope childrenScope eph v = .ok q) :
    (∀ s, q.1 = some s → s.Stored db) ∧ ∀ s, q.2 = some s → s.Stored db := by
  unfold selectFromAll at hq
  split at hq
  · obtain ⟨s, rfl, hs⟩ := exists_stored_of_map hq
    exact ⟨by simpa using hs, by simp⟩
  · obtain ⟨s, rfl, hs⟩ := exists_stored_of_map hq
    exact ⟨by simpa using hs, by simp⟩
  · split at hq
    · obtain rfl := Except.ok.inj hq
      simp
    · obtain ⟨s, rfl, hs⟩ := exists_stored_of_map hq
      exact ⟨by simpa using hs, by simp⟩
  · obtain ⟨s, rfl, hs⟩ := exists_stored_of_map hq
    exact ⟨by simp, by simpa using hs⟩
  · obtain rfl := Except.ok.inj hq
    exact ⟨fun s hs => Option.some.inj hs ▸ Selection.Stored.new, by simp⟩
  · obtain rfl := Except.ok.inj hq
    simp

/-- What one selector computes is loaded. -/
theorem stored_of_computeSelector {c : Command} {parentScope childrenScope : ScopeContext}
    {eph : EphContext} {layerIds : List ℤ} {v : Verb} {r : SelectorResult}
    (h : computeSelector db c parentScope childrenScope eph layerIds v = .ok r) :
    (∀ s, r.selection = some s → s.Stored db) ∧ ∀ s, r.cell = some s → s.Stored db := by
  unfold computeSelector at h
  split at h
  · split at h
    · obtain rfl := Except.ok.inj h
      simp
    · split at h
      · cases h
      · next s hs =>
        obtain rfl := Except.ok.inj h
        refine ⟨?_, by simp⟩
        rintro s' rfl
        unfold selectFromLayers at hs
        dsimp only at hs
        split at hs
        · cases hs
        · obtain ⟨s, hsome, hstored⟩ := exists_stored_of_map hs
          exact Option.some.inj hsome ▸ hstored
  · split at h
    · cases h
    · next s cell hs =>
      obtain rfl := Except.ok.inj h
      exact stored_of_selectFromAll hs

/-- The initial selections are stored. -/
theorem storedSelections_of_computeRoots {layers : LayerStore n} {roots : List RootLayer}
    {ctx : ExecutionContext n} (hroots : computeRoots db t layers roots = .ok ctx) :
    StoredSelections db t ctx := by
  have hstored : ∀ {i}, ∀ v ∈ t.selectors i,
      (∀ s, ctx.selection v.id = some s → s.Stored db) ∧
        ∀ s, ctx.cell v.id = some s → s.Stored db := by
    intro i v hv
    obtain ⟨ps, cs, eph, hall⟩ := computed_of_computeRoots hroots i
    obtain ⟨r, hr, hsel, hcell⟩ := hall v hv
    rw [hsel, hcell]
    exact stored_of_computeSelector hr
  exact ⟨fun v hv => (hstored v hv).1, fun v hv => (hstored v hv).2⟩

/-- **What a run selects is stored in the database.** -/
theorem storedSelections_of_run {layers : LayerStore n} {roots : List RootLayer}
    {ctx : ExecutionContext n} (hroots : computeRoots db t layers roots = .ok ctx)
    {st : WorkState n} (hrun : ReflTransGen (Step db t) (seed t ctx) st) :
    StoredSelections db t st.ctx :=
  Runs.invariant_of_run (I := fun st => StoredSelections db t st.ctx)
    (fun h hstep => h.step hstep) hrun (storedSelections_of_computeRoots hroots)

end Askl
