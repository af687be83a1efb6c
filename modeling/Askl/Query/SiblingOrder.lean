import Askl.Query.ComputeRoots

/-!
# The order of sibling layers

The loop of `compute_roots` as a fold over the statements: each is queued, after the queue
has been drained if the statement has to wait.  A top-level statement has at most one
ordering edge, to the last layer creator before it, and yet sees the layers of all of them.

## Main definitions

* `queueStatement` — one turn of the loop.
* `Chained` — chains that have grown by whole rounds, the same ones for every root.

## Main results

* `computeRoots_eq` — `compute_roots` is the fold, and a last drain.
* `sibling_layers_of_queue` — **a top-level statement sees the layers of every earlier
  top-level layer creator.**
-/

namespace Askl

variable {n : ℕ} (db : Database) (t : StatementTree n) (layers : LayerStore n)

/-! ### The loop as a fold -/

/-- One turn of the loop: drain the queue if the statement has to wait, and queue it. -/
def queueStatement (st : List (PendingCompute n) × ExecutionContext n) (i : Fin n) :
    Except ExecError (List (PendingCompute n) × ExecutionContext n) :=
  if hasPreSeed t i then
    (drainPending db t layers st.1 st.2).map fun ctx => ([pendingCompute t ctx i], ctx)
  else .ok (st.1 ++ [pendingCompute t st.2 i], st.2)

/-- The state of the loop after some statements have been queued. -/
def queueAll (roots : List RootLayer) (is : List (Fin n)) :
    Except ExecError (List (PendingCompute n) × ExecutionContext n) :=
  is.foldlM (queueStatement db t layers) ([], .new roots)

theorem computeRootsLoop_eq (is : List (Fin n)) (pending : List (PendingCompute n))
    (ctx : ExecutionContext n) : computeRootsLoop db t layers is pending ctx =
      (is.foldlM (queueStatement db t layers) (pending, ctx)).bind
        fun st => drainPending db t layers st.1 st.2 := by
  induction is generalizing pending ctx with
  | nil => rfl
  | cons i is ih =>
    rw [computeRootsLoop, List.foldlM_cons]
    unfold queueStatement
    split
    · cases drainPending db t layers pending ctx with
      | error e => rfl
      | ok ctx' => exact ih [pendingCompute t ctx' i] ctx'
    · exact ih (pending ++ [pendingCompute t ctx i]) ctx

/-- `compute_roots` queues the statements in visiting order, and drains the queue once
more. -/
theorem computeRoots_eq (roots : List RootLayer) : computeRoots db t layers roots =
    (queueAll db t layers roots (List.finRange n)).bind
      fun st => drainPending db t layers st.1 st.2 :=
  computeRootsLoop_eq db t layers (List.finRange n) [] (.new roots)

/-! ### Rounds -/

/-- The layers of a statement for one root, in order. -/
def layersFor (activations : List LayerActivation) (r : RootLayer) : List ℤ :=
  (activations.filter fun a => a.rootId == r.id).map (·.layerId)

/-- Chains that have grown by whole rounds: the statements of a list, in its order, have
each added their layers for every root. -/
structure Chained (roots : List RootLayer) (eph : EphContext)
    (activations : Fin n → List LayerActivation) (order : List (Fin n)) : Prop where
  nodup : order.Nodup
  creators : ∀ j ∈ order, (t.command j).hasLayerSpec = true
  roots : eph.roots = (EphContext.rooted roots).roots
  chains : eph.chains = eph.roots.map fun r => order.flatMap fun j => layersFor (activations j) r
  everyRoot : ∀ j ∈ order, ∀ r ∈ eph.roots, layersFor (activations j) r ≠ []

variable {db t layers}

theorem pushRound_chains {eph eph' : EphContext} {activations : List LayerActivation}
    (h : eph.pushRound (activations.map fun a => (a.rootId, a.layerId)) = some eph') :
    eph'.roots = eph.roots ∧
      eph'.chains = List.zipWith (fun r chain => chain ++ layersFor activations r)
        eph.roots eph.chains ∧ ∀ r ∈ eph.roots, layersFor activations r ≠ [] := by
  unfold EphContext.pushRound at h
  split at h
  · next hmatch =>
    obtain rfl := Option.some.inj h
    refine ⟨rfl, ?_, fun r hr hnil => ?_⟩
    · have hpush : EphContext.pushChain (activations.map fun a => (a.rootId, a.layerId)) =
          fun r chain => chain ++ layersFor activations r := by
        funext r chain
        simp [EphContext.pushChain, layersFor, List.filter_map, Function.comp_def]
      show List.zipWith _ eph.roots eph.chains = _
      rw [hpush]
    · simp only [EphContext.roundMatches, Bool.and_eq_true, List.all_eq_true] at hmatch
      obtain ⟨p, hp, hpr⟩ := List.any_eq_true.mp (hmatch.1 r hr)
      obtain ⟨a, ha, rfl⟩ := List.mem_map.mp hp
      rw [layersFor, List.map_eq_nil_iff, List.filter_eq_nil_iff] at hnil
      exact hnil a ha hpr
  · cases h

/-- The layers seen after a statement's own layers have joined. -/
theorem pushRound_of_materialise {i : Fin n} {eph eph' : EphContext} {resolved : LabelResolutions}
    {activations : List LayerActivation}
    (h : materialise layers (t.command i) i eph resolved = .ok (activations, eph')) :
    ((t.command i).hasLayerSpec = false ∧ activations = [] ∧ eph' = eph) ∨
      ((t.command i).hasLayerSpec = true ∧ layers i eph resolved = .ok activations ∧
        eph.pushRound (activations.map fun a => (a.rootId, a.layerId)) = some eph') := by
  unfold materialise at h
  split at h
  · next hspec =>
    split at h
    · cases h
    · next acts hacts =>
      split at h
      · cases h
      · next eph'' hpush =>
        obtain ⟨rfl, rfl⟩ := Prod.mk.inj (Except.ok.inj h)
        exact Or.inr ⟨hspec, hacts, hpush⟩
  · next hspec =>
    obtain ⟨rfl, rfl⟩ := Prod.mk.inj (Except.ok.inj h)
    exact Or.inl ⟨Bool.not_eq_true _ ▸ hspec, rfl, rfl⟩

/-- A computation that succeeds has a layer for every root, if its statement creates
layers, and none otherwise. -/
theorem computeSelected_activations {i : Fin n} {parentScope childrenScope : ScopeContext}
    {eph : EphContext} {resolved : LabelResolutions} {r : ComputeResult}
    (h : computeSelected db t layers i parentScope childrenScope eph resolved = .ok r) :
    ((t.command i).hasLayerSpec = true →
        ∀ root ∈ eph.roots, layersFor r.layerActivations root ≠ []) ∧
      ((t.command i).hasLayerSpec = false → r.layerActivations = []) := by
  obtain ⟨eph', hmat, -⟩ := materialise_of_computeSelected h
  rcases pushRound_of_materialise hmat with ⟨hno, hnil, -⟩ | ⟨hyes, -, hpush⟩
  · exact ⟨fun hyes => absurd hyes (by simp [hno]), fun _ => hnil⟩
  · exact ⟨fun _ => (pushRound_chains hpush).2.2, fun hno => absurd hyes (by simp [hno])⟩

theorem eph_foldl_applySelector (ctx : ExecutionContext n) (rs : List (Verb × SelectorResult)) :
    (rs.foldl applySelector ctx).eph = ctx.eph :=
  (foldl_applySelector_sameExcept ctx rs).eph

/-- What an application does to the layers: a round for the statement, if there is one. -/
theorem apply_eph {r : ComputeResult} {ctx ctx' : ExecutionContext n} {i : Fin n}
    (h : r.apply ctx i = .ok ctx') :
    (r.layerActivations = [] ∧ ctx'.eph = ctx.eph) ∨
      ctx.eph.pushRound (r.layerActivations.map fun a => (a.rootId, a.layerId)) =
        some ctx'.eph := by
  unfold ComputeResult.apply at h
  dsimp only at h
  split at h
  · next hnil =>
    obtain rfl := Except.ok.inj h
    exact Or.inl ⟨List.isEmpty_iff.mp hnil, eph_foldl_applySelector ctx r.selections⟩
  · split at h
    · cases h
    · next eph hpush =>
      obtain rfl := Except.ok.inj h
      exact Or.inr hpush

/-- The list of rounds after one more statement. -/
def orderWith (t : StatementTree n) (order : List (Fin n)) (i : Fin n) : List (Fin n) :=
  if (t.command i).hasLayerSpec then order ++ [i] else order

theorem mem_orderWith {order : List (Fin n)} {i j : Fin n} : j ∈ orderWith t order i ↔
    j ∈ order ∨ j = i ∧ (t.command i).hasLayerSpec = true := by
  unfold orderWith
  split
  · next h => simp [h]
  · next h => simp [h]

/-- One application adds at most its statement's round, to every chain. -/
theorem Chained.apply {roots : List RootLayer} {ctx ctx' : ExecutionContext n}
    {order : List (Fin n)} (h : Chained t roots ctx.eph ctx.layerActivations order)
    {i : Fin n} {parentScope childrenScope : ScopeContext} {eph : EphContext}
    {resolved : LabelResolutions} {r : ComputeResult}
    (hr : computeSelected db t layers i parentScope childrenScope eph resolved = .ok r)
    (heph : eph.roots = ctx.eph.roots) (happly : r.apply ctx i = .ok ctx')
    (hfresh : ctx.layerActivations i = []) (hi : i ∉ order) :
    Chained t roots ctx'.eph ctx'.layerActivations (orderWith t order i) := by
  obtain ⟨-, -, hact⟩ := apply_eq happly
  rw [hfresh, List.nil_append] at hact
  obtain ⟨hyes, hno⟩ := computeSelected_activations hr
  -- the rounds of the other statements are as they were
  have hsame : ∀ j ∈ order, ctx'.layerActivations j = ctx.layerActivations j := by
    intro j hj
    have hne : j ≠ i := by
      rintro rfl
      exact hi hj
    rw [hact, Function.update_of_ne hne]
  have hself : ctx'.layerActivations i = r.layerActivations := by
    rw [hact, Function.update_self]
  have hold : ∀ r' : RootLayer,
      (order.flatMap fun j => layersFor (ctx'.layerActivations j) r') =
        order.flatMap fun j => layersFor (ctx.layerActivations j) r' := by
    intro r'
    exact List.flatMap_congr fun j hj => by rw [hsame j hj]
  have hroots : ctx'.eph.roots = ctx.eph.roots := by
    rcases apply_eph happly with ⟨-, he⟩ | hpush
    · rw [he]
    · exact (pushRound_chains hpush).1
  have hchains : ctx'.eph.chains = ctx.eph.roots.map fun r' =>
      (order.flatMap fun j => layersFor (ctx.layerActivations j) r') ++
        layersFor r.layerActivations r' := by
    rcases apply_eph happly with ⟨hnil, he⟩ | hpush
    · rw [he, h.chains, hnil]
      simp [layersFor]
    · rw [(pushRound_chains hpush).2.1, h.chains, List.zipWith_map_right, List.zipWith_self]
  unfold orderWith
  split
  · next hspec =>
    refine ⟨?_, ?_, hroots.trans h.roots, ?_, ?_⟩
    · rw [List.nodup_append]
      refine ⟨h.nodup, List.nodup_singleton i, ?_⟩
      rintro a ha b hb rfl
      exact hi (List.mem_singleton.mp hb ▸ ha)
    · intro j hj
      rcases List.mem_append.mp hj with hj | hj
      · exact h.creators j hj
      · rw [List.mem_singleton.mp hj]
        exact hspec
    · rw [hchains, hroots]
      refine List.map_congr_left fun r' _ => ?_
      rw [List.flatMap_append, hold r', List.flatMap_singleton, hself]
    · intro j hj r' hr'
      rw [hroots] at hr'
      rcases List.mem_append.mp hj with hj | hj
      · rw [hsame j hj]
        exact h.everyRoot j hj r' hr'
      · rw [List.mem_singleton.mp hj, hself]
        exact hyes hspec r' (heph ▸ hr')
  · next hspec =>
    have hnil := hno (by simpa using hspec)
    refine ⟨h.nodup, h.creators, hroots.trans h.roots, ?_, ?_⟩
    · rw [hchains, hroots]
      refine List.map_congr_left fun r' _ => ?_
      rw [hold r', hnil]
      simp [layersFor]
    · intro j hj r' hr'
      rw [hsame j hj]
      exact h.everyRoot j hj r' (hroots ▸ hr')

/-! ### The queue -/

/-- The loop, after some statements: the layers of those whose results have been applied are
on the chains, the others wait in the queue without layers. -/
structure QueueInv (t : StatementTree n) (roots : List RootLayer) (is : List (Fin n))
    (st : List (PendingCompute n) × ExecutionContext n) (order : List (Fin n)) : Prop where
  chained : Chained t roots st.2.eph st.2.layerActivations order
  pendingRoots : ∀ p ∈ st.1, p.eph.roots = (EphContext.rooted roots).roots
  nodup : (st.1.map (·.statement)).Nodup
  pendingSubset : ∀ p ∈ st.1, p.statement ∈ is
  orderSubset : ∀ j ∈ order, j ∈ is
  disjoint : ∀ p ∈ st.1, p.statement ∉ order
  fresh : ∀ j, j ∈ st.1.map (·.statement) ∨ j ∉ is → st.2.layerActivations j = []
  cover : ∀ j ∈ is, (t.command j).hasLayerSpec = true → j ∈ order ∨ j ∈ st.1.map (·.statement)

namespace QueueInv

variable {roots : List RootLayer} {is order : List (Fin n)}
  {pending : List (PendingCompute n)} {ctx ctx' : ExecutionContext n}

theorem start : QueueInv t roots [] ([], .new roots) [] where
  chained := by
    refine ⟨List.nodup_nil, by simp, rfl, ?_, by simp⟩
    simp [ExecutionContext.new, EphContext.rooted]
  pendingRoots := by simp
  nodup := List.nodup_nil
  pendingSubset := by simp
  orderSubset := by simp
  disjoint := by simp
  fresh _ _ := rfl
  cover := by simp

/-- The head of the queue is applied. -/
theorem applyHead {p : PendingCompute n} (h : QueueInv t roots is (p :: pending, ctx) order)
    {r : ComputeResult}
    (hr : computeSelected db t layers p.statement p.parentScope p.childrenScope p.eph p.resolved =
      .ok r) (happly : r.apply ctx p.statement = .ok ctx') :
    QueueInv t roots is (pending, ctx') (orderWith t order p.statement) := by
  have hnd := List.nodup_cons.mp (List.map_cons ▸ h.nodup)
  have hroots : p.eph.roots = ctx.eph.roots :=
    (h.pendingRoots p List.mem_cons_self).trans h.chained.roots.symm
  have hfresh : ctx.layerActivations p.statement = [] := h.fresh _ (Or.inl List.mem_cons_self)
  have hact := (apply_eq happly).2.2
  refine ⟨h.chained.apply hr hroots happly hfresh (h.disjoint p List.mem_cons_self),
    fun q hq => h.pendingRoots q (List.mem_cons_of_mem p hq), hnd.2,
    fun q hq => h.pendingSubset q (List.mem_cons_of_mem p hq), ?_, ?_, ?_, ?_⟩
  · intro j hj
    rcases mem_orderWith.mp hj with hj | ⟨rfl, -⟩
    · exact h.orderSubset j hj
    · exact h.pendingSubset p List.mem_cons_self
  · intro q hq hmem
    rcases mem_orderWith.mp hmem with hmem | ⟨heq, -⟩
    · exact h.disjoint q (List.mem_cons_of_mem p hq) hmem
    · exact hnd.1 (List.mem_map.mpr ⟨q, hq, heq⟩)
  · intro j hj
    have hne : j ≠ p.statement := by
      rintro rfl
      rcases hj with hj | hj
      · exact hnd.1 hj
      · exact hj (h.pendingSubset p List.mem_cons_self)
    rw [hact, Function.update_of_ne hne]
    exact h.fresh j (hj.imp_left fun hj => List.mem_cons_of_mem _ hj)
  · intro j hj hspec
    rcases h.cover j hj hspec with hord | hpend
    · exact Or.inl (mem_orderWith.mpr (Or.inl hord))
    · rcases List.mem_cons.mp hpend with rfl | hpend
      · exact Or.inl (mem_orderWith.mpr (Or.inr ⟨rfl, hspec⟩))
      · exact Or.inr hpend

/-- A drain applies the whole queue: every layer creator so far is on the chains. -/
theorem drain (h : QueueInv t roots is (pending, ctx) order)
    (hdrain : drainPending db t layers pending ctx = .ok ctx') :
    ∃ order', QueueInv t roots is ([], ctx') order' := by
  induction pending generalizing ctx order with
  | nil =>
    obtain rfl := drainPending_nil hdrain
    exact ⟨order, h⟩
  | cons p ps ih =>
    obtain ⟨r, ctx₁, hr, happly, hdrain⟩ := drainPending_cons hdrain
    exact ih (h.applyHead hr happly) hdrain

/-- A statement that is queued has the layers of the moment. -/
theorem push {i : Fin n} (h : QueueInv t roots is (pending, ctx) order) (hi : i ∉ is) :
    QueueInv t roots (is ++ [i]) (pending ++ [pendingCompute t ctx i], ctx) order where
  chained := h.chained
  pendingRoots p hp := by
    rcases List.mem_append.mp hp with hp | hp
    · exact h.pendingRoots p hp
    · rw [List.mem_singleton.mp hp]
      exact h.chained.roots
  nodup := by
    rw [List.map_append, List.nodup_append]
    refine ⟨h.nodup, List.nodup_singleton _, ?_⟩
    rintro a ha b hb rfl
    obtain ⟨p, hp, rfl⟩ := List.mem_map.mp ha
    have heq : p.statement = i := List.mem_singleton.mp hb
    exact hi (heq ▸ h.pendingSubset p hp)
  pendingSubset p hp := by
    rcases List.mem_append.mp hp with hp | hp
    · exact List.mem_append_left _ (h.pendingSubset p hp)
    · rw [List.mem_singleton.mp hp]
      exact List.mem_append_right _ List.mem_cons_self
  orderSubset j hj := List.mem_append_left _ (h.orderSubset j hj)
  disjoint p hp hmem := by
    rcases List.mem_append.mp hp with hp | hp
    · exact h.disjoint p hp hmem
    · rw [List.mem_singleton.mp hp] at hmem
      exact hi (h.orderSubset i hmem)
  fresh j hj := by
    refine h.fresh j ?_
    rcases hj with hj | hj
    · rw [List.map_append, List.mem_append] at hj
      rcases hj with hj | hj
      · exact Or.inl hj
      · obtain rfl : j = i := List.mem_singleton.mp hj
        exact Or.inr hi
    · exact Or.inr fun hmem => hj (List.mem_append_left _ hmem)
  cover j hj hspec := by
    rw [List.map_append, List.mem_append]
    rcases List.mem_append.mp hj with hj | hj
    · exact (h.cover j hj hspec).imp_right Or.inl
    · rw [List.mem_singleton.mp hj]
      exact Or.inr (Or.inr List.mem_cons_self)

/-- One turn of the loop. -/
theorem queue {i : Fin n} {st st' : List (PendingCompute n) × ExecutionContext n}
    (h : QueueInv t roots is st order) (hi : i ∉ is)
    (hq : queueStatement db t layers st i = .ok st') :
    ∃ order', QueueInv t roots (is ++ [i]) st' order' ∧
      (hasPreSeed t i = true → ∀ j ∈ is, (t.command j).hasLayerSpec = true → j ∈ order') := by
  unfold queueStatement at hq
  split at hq
  · obtain ⟨ctx', hdrain, rfl⟩ := Fallible.map_eq_ok.mp hq
    obtain ⟨order', hinv⟩ := h.drain hdrain
    refine ⟨order', hinv.push hi, fun _ j hj hspec => ?_⟩
    exact (hinv.cover j hj hspec).resolve_right List.not_mem_nil
  · next hno =>
    obtain rfl := Except.ok.inj hq
    exact ⟨order, h.push hi, fun hyes => absurd hyes hno⟩

end QueueInv

/-- The loop keeps the invariant. -/
theorem queueInv_of_queueAll {roots : List RootLayer} {is : List (Fin n)}
    {st : List (PendingCompute n) × ExecutionContext n} (hnd : is.Nodup)
    (h : queueAll db t layers roots is = .ok st) : ∃ order, QueueInv t roots is st order := by
  induction is using List.reverseRecOn generalizing st with
  | nil =>
    obtain rfl := Except.ok.inj h
    exact ⟨[], .start⟩
  | append_singleton is i ih =>
    rw [queueAll, List.foldlM_append] at h
    obtain ⟨mid, hmid, hlast⟩ := Fallible.bind_eq_ok.mp h
    rw [List.nodup_append] at hnd
    obtain ⟨order, hinv⟩ := ih hnd.1 hmid
    have hi : i ∉ is := fun hmem => hnd.2.2 i hmem i List.mem_cons_self rfl
    have hq : queueStatement db t layers mid i = .ok st := by
      simpa [List.foldlM_cons] using hlast
    obtain ⟨order', hinv', -⟩ := hinv.queue hi hq
    exact ⟨order', hinv'⟩

/-! ### The ordering edges -/

@[simp] theorem siblingEdges_none_cons (t : StatementTree n) (j : Fin n) (js : List (Fin n)) :
    t.siblingEdges none (j :: js) =
      t.siblingEdges (if (t.command j).hasLayerSpec then some j else none) js := rfl

@[simp] theorem siblingEdges_some_cons (t : StatementTree n) (i j : Fin n)
    (js : List (Fin n)) : t.siblingEdges (some i) (j :: js) =
      (i, j) :: t.siblingEdges (if (t.command j).hasLayerSpec then some j else some i) js := rfl

/-- The edges of a list lead to different statements of it. -/
theorem snd_siblingEdges_sublist (t : StatementTree n) (last : Option (Fin n))
    (js : List (Fin n)) : ((t.siblingEdges last js).map (·.2)).Sublist js := by
  induction js generalizing last with
  | nil => exact List.Sublist.slnil
  | cons j js ih =>
    cases last with
    | none =>
      rw [siblingEdges_none_cons]
      exact (ih _).cons j
    | some i =>
      rw [siblingEdges_some_cons, List.map_cons]
      exact (ih _).cons_cons j

/-- A statement has at most one ordering edge. -/
theorem length_siblingEdges_le (t : StatementTree n) (i : Fin n) :
    ((t.siblingEdges none t.topLevel).filter fun e => e.2 = i).length ≤ 1 := by
  have hnd : ((t.siblingEdges none t.topLevel).map (·.2)).Nodup :=
    (snd_siblingEdges_sublist t none t.topLevel).nodup ((List.nodup_finRange n).filter _)
  have hcount := List.nodup_iff_count_le_one.mp hnd i
  rw [List.count, List.countP_map, List.countP_eq_length_filter] at hcount
  have heq : (fun e : Fin n × Fin n => decide (e.2 = i)) = (· == i) ∘ Prod.snd := by
    funext e
    rfl
  rw [heq]
  exact hcount

/-- A statement that follows a layer creator has an ordering edge. -/
theorem exists_siblingEdge (t : StatementTree n) {i : Fin n} {before after : List (Fin n)}
    {last : Option (Fin n)}
    (h : last.isSome = true ∨ ∃ j ∈ before, (t.command j).hasLayerSpec = true) :
    ∃ e ∈ t.siblingEdges last (before ++ i :: after), e.2 = i := by
  induction before generalizing last with
  | nil =>
    cases last with
    | none => simp at h
    | some k =>
      rw [List.nil_append, siblingEdges_some_cons]
      exact ⟨(k, i), List.mem_cons_self, rfl⟩
  | cons b before ih =>
    -- past a layer creator there is always a last one
    have hrest : ∃ e ∈ t.siblingEdges (if (t.command b).hasLayerSpec then some b else last)
        (before ++ i :: after), e.2 = i := by
      apply ih
      by_cases hb : (t.command b).hasLayerSpec = true
      · simp [hb]
      · rw [if_neg hb]
        refine h.imp_right ?_
        rintro ⟨j, hj, hspec⟩
        rcases List.mem_cons.mp hj with rfl | hj
        · exact absurd hspec hb
        · exact ⟨j, hj, hspec⟩
    rw [List.cons_append]
    cases last with
    | none =>
      rw [siblingEdges_none_cons]
      exact hrest
    | some k =>
      rw [siblingEdges_some_cons]
      obtain ⟨e, he, hei⟩ := hrest
      exact ⟨e, List.mem_cons_of_mem _ he, hei⟩

/-- A top-level statement below a top-level layer creator waits for it. -/
theorem hasPreSeed_of_creator {i j : Fin n} (hi : t.parent i = none) (hj : t.parent j = none)
    (hlt : j < i) (hspec : (t.command j).hasLayerSpec = true) : hasPreSeed t i = true := by
  have himem : i ∈ t.topLevel := List.mem_filter.mpr ⟨List.mem_finRange i, by simp [hi]⟩
  have hjmem : j ∈ t.topLevel := List.mem_filter.mpr ⟨List.mem_finRange j, by simp [hj]⟩
  obtain ⟨before, after, hsplit⟩ := List.append_of_mem himem
  have hsorted : t.topLevel.Pairwise (· < ·) := (List.pairwise_lt_finRange n).filter _
  have hbefore : j ∈ before := by
    rw [hsplit] at hjmem hsorted
    rcases List.mem_append.mp hjmem with hmem | hmem
    · exact hmem
    · rcases List.mem_cons.mp hmem with rfl | hmem
      · exact absurd hlt (lt_irrefl _)
      · have hafter := (List.pairwise_cons.mp (List.pairwise_append.mp hsorted).2.1).1 j hmem
        exact absurd (hlt.trans hafter) (lt_irrefl _)
  have hedge : ∃ e ∈ t.siblingEdges none (before ++ i :: after), e.2 = i :=
    exists_siblingEdge t (Or.inr ⟨j, hbefore, hspec⟩)
  obtain ⟨e, he, hei⟩ := hedge
  rw [← hsplit] at he
  unfold hasPreSeed
  rw [Bool.or_eq_true]
  exact Or.inr (List.any_eq_true.mpr ⟨e, he, by simpa using hei⟩)

/-! ### What a top-level statement sees -/

theorem take_finRange_succ (i : Fin n) :
    (List.finRange n).take (i + 1) = (List.finRange n).take i ++ [i] := by
  rw [List.take_add_one]
  simp

theorem mem_take_finRange {m : ℕ} {j : Fin n} : j ∈ (List.finRange n).take m ↔ (j : ℕ) < m := by
  rw [List.mem_take_iff_getElem]
  constructor
  · rintro ⟨k, hk, rfl⟩
    simpa using (lt_min_iff.mp hk).1
  · intro hlt
    refine ⟨j, ?_, by simp⟩
    have := j.isLt
    simpa using hlt

/-- The statement queued last captures the layers of the moment. -/
theorem getLast?_queueStatement {st st' : List (PendingCompute n) × ExecutionContext n}
    {i : Fin n} (h : queueStatement db t layers st i = .ok st') :
    st'.1.getLast? = some (pendingCompute t st'.2 i) := by
  unfold queueStatement at h
  split at h
  · obtain ⟨ctx, -, rfl⟩ := Fallible.map_eq_ok.mp h
    rfl
  · obtain rfl := Except.ok.inj h
    simp

/-- **Sibling layer ordering.**  When a top-level statement is queued, it has at most one
ordering edge, and the layers it captures are those of whole rounds: the same statements,
in the same order, have added layers to the chain of every root, and every earlier
top-level layer creator is among them. -/
theorem sibling_layers_of_queue {roots : List RootLayer} {i : Fin n}
    (htop : t.parent i = none) {pending : List (PendingCompute n)} {ctx : ExecutionContext n}
    (h : queueAll db t layers roots ((List.finRange n).take (i + 1)) = .ok (pending, ctx)) :
    ((t.siblingEdges none t.topLevel).filter fun e => e.2 = i).length ≤ 1 ∧
      ∃ p, pending.getLast? = some p ∧ p.statement = i ∧
        ∃ order, Chained t roots p.eph ctx.layerActivations order ∧
          ∀ j < i, t.parent j = none → (t.command j).hasLayerSpec = true → j ∈ order := by
  refine ⟨length_siblingEdges_le t i, ?_⟩
  rw [take_finRange_succ, queueAll, List.foldlM_append] at h
  obtain ⟨mid, hmid, hlast⟩ := Fallible.bind_eq_ok.mp h
  have hq : queueStatement db t layers mid i = .ok (pending, ctx) := by
    simpa [List.foldlM_cons] using hlast
  have hnd : ((List.finRange n).take i).Nodup :=
    (List.take_sublist _ _).nodup (List.nodup_finRange n)
  have hi : i ∉ (List.finRange n).take i := fun hmem =>
    absurd (mem_take_finRange.mp hmem) (lt_irrefl i)
  obtain ⟨order, hinv⟩ := queueInv_of_queueAll hnd hmid
  obtain ⟨order', hinv', hall⟩ := hinv.queue hi hq
  refine ⟨pendingCompute t ctx i, getLast?_queueStatement hq, rfl, order', hinv'.chained, ?_⟩
  intro j hlt hj hspec
  exact hall (hasPreSeed_of_creator htop hj hlt hspec) j (mem_take_finRange.mpr hlt) hspec

/-- `layer { … } ; layer { … } ; "a"`, at the top level. -/
def siblingTree : StatementTree 3 :=
  .ofChecked
    (fun i => match i with
      | 0 => .plain [.plain 0 (.layer [] false)]
      | 1 => .plain [.plain 1 (.layer [] false)]
      | 2 => .plain [.plain 2 (.name (nameFilter ['a']) none)])
    (fun _ => none) ⟨true, true⟩ (by decide)

/-- A store that materialises one layer of a statement for every root. -/
def baseLayers : LayerStore n := fun i eph _ =>
  .ok (eph.roots.map fun r => ⟨r.id, -1000000 - 10 * r.id - i, false⟩)

/-- The last statement sees the layers of both blocks, in the chains of both roots. -/
theorem sibling_layers_of_blocks : ∃ (p : PendingCompute 3) (ctx : ExecutionContext 3),
    p.statement = 2 ∧ ctx.eph.chains = [[-1000010, -1000011], [-1000020, -1000021]] ∧
      ∃ order, Chained siblingTree [⟨1, 1⟩, ⟨2, 2⟩] p.eph ctx.layerActivations order ∧
        0 ∈ order ∧ 1 ∈ order := by
  obtain ⟨⟨pending, ctx⟩, hqueue, hchains⟩ := Fallible.map_eq_ok.mp
    (show (queueAll callDatabase siblingTree baseLayers [⟨1, 1⟩, ⟨2, 2⟩]
        ((List.finRange 3).take ((2 : Fin 3) + 1))).map (fun st => st.2.eph.chains) =
      .ok [[-1000010, -1000011], [-1000020, -1000021]] by decide +kernel)
  obtain ⟨-, p, -, hp, order, hchained, hmem⟩ := sibling_layers_of_queue (by rfl) hqueue
  exact ⟨p, ctx, hp, hchains, order, hchained,
    hmem 0 (by decide) rfl (by decide), hmem 1 (by decide) rfl (by decide)⟩

end Askl
