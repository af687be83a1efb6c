import Askl.Query.PartitionedLayers
import Askl.Store.LayerSigns

/-!
# The invariant of the layers a request sees

A context grows by rounds.  Each round is what one statement has materialised for the roots of
the context it captured, and joins the chains of that copy and, when the statement's result is
applied, those of the shared context, on which other rounds may have arrived in the meantime.
All contexts of an execution have the same roots, so a round names every root of the context it
joins, and all chains of a context are made of the same rounds.

## Main definitions

* `CompleteRound` — layers for every root and for no other.
* `Grown` — a context that has grown by the complete rounds of different statements.
* `QueryExecution` — an execution, with the roots and layers that the index hands out.
* `QueryExecution.Pushes`, `QueryExecution.Reaches` — the rounds, and the contexts.
* `EphInvariant` — what holds of a context.

## Main results

* `Grown.ephInvariant` — **a context that has grown by complete rounds keeps the invariant.**
* `ephInvariant_of_execution` — **no round of an execution panics**, and all its contexts keep
  the invariant.
-/

namespace Askl

variable {n : ℕ}

/-! ### Rounds -/

/-- The round that some layers make. -/
def roundOf (activations : List LayerActivation) : List (ℤ × ℤ) :=
  activations.map fun a => (a.rootId, a.layerId)

/-- The layers of a round: some for every root, none for another, and all ephemeral. -/
structure CompleteRound (roots : List RootLayer) (activations : List LayerActivation) : Prop where
  every : ∀ r ∈ roots, ∃ a ∈ activations, a.rootId = r.id
  only : ∀ a ∈ activations, ∃ r ∈ roots, a.rootId = r.id
  negative : ∀ a ∈ activations, a.layerId < 0

namespace CompleteRound

variable {eph : EphContext} {activations : List LayerActivation}

theorem roundMatches (h : CompleteRound eph.roots activations) :
    eph.roundMatches (roundOf activations) = true := by
  unfold EphContext.roundMatches roundOf
  rw [Bool.and_eq_true, List.all_eq_true, List.all_eq_true]
  constructor
  · intro r hr
    obtain ⟨a, ha, hid⟩ := h.every r hr
    exact List.any_eq_true.mpr ⟨_, List.mem_map_of_mem ha, by simpa using hid⟩
  · intro p hp
    obtain ⟨a, ha, rfl⟩ := List.mem_map.mp hp
    obtain ⟨r, hr, hid⟩ := h.only a ha
    exact List.any_eq_true.mpr ⟨r, hr, by simpa using hid⟩

/-- A complete round joins the chains. -/
theorem exists_pushRound (h : CompleteRound eph.roots activations) :
    ∃ eph', eph.pushRound (roundOf activations) = some eph' := by
  unfold EphContext.pushRound
  rw [dif_pos h.roundMatches]
  exact ⟨_, rfl⟩

theorem neg_of_mem_layersFor {roots : List RootLayer} (h : CompleteRound roots activations)
    {r : RootLayer} {l : ℤ} (hl : l ∈ layersFor activations r) : l < 0 := by
  obtain ⟨a, ha, rfl⟩ := List.mem_map.mp hl
  exact h.negative a (List.mem_of_mem_filter ha)

end CompleteRound

/-- A context that has grown from its roots by the complete rounds of different statements, each
of which the statement has made. -/
inductive Grown (made : Fin n → List LayerActivation → Prop) (roots : List RootLayer) :
    List (Fin n × List LayerActivation) → EphContext → Prop
  | rooted : Grown made roots [] (.rooted roots)
  | push {rounds : List (Fin n × List LayerActivation)} {eph eph' : EphContext} {i : Fin n}
      {activations : List LayerActivation} : Grown made roots rounds eph →
      i ∉ rounds.map (·.1) → made i activations → CompleteRound eph.roots activations →
      eph.pushRound (roundOf activations) = some eph' →
      Grown made roots (rounds ++ [(i, activations)]) eph'

/-- What holds of every context: its roots are sorted, distinct and positive; each root has one
chain, of ephemeral layers; all chains are made of the same statements' rounds, in one order; and
the visible layers and the test for chains speak of all of them. -/
structure EphInvariant (made : Fin n → List LayerActivation → Prop) (eph : EphContext) : Prop where
  sorted : eph.roots.Pairwise fun a b => a.id < b.id
  positive : ∀ r ∈ eph.roots, 0 < r.id
  parallel : eph.chains.length = eph.roots.length
  negative : ∀ c ∈ eph.chains, ∀ l ∈ c, l < 0
  rounds : ∃ rounds : List (Fin n × List LayerActivation), (rounds.map (·.1)).Nodup ∧
    (∀ x ∈ rounds, made x.1 x.2 ∧ CompleteRound eph.roots x.2) ∧
    eph.chains = eph.roots.map fun r => rounds.flatMap fun x => layersFor x.2 r
  visible : ∀ l, l ∈ eph.visibleIds ↔ l ∈ eph.rootIds ∨ ∃ r ∈ eph.roots, l ∈ eph.chainOf r.id
  hasChain : eph.roots ≠ [] →
    (eph.hasChain = true ↔ ∀ r ∈ eph.roots, eph.chainOf r.id ≠ [])

namespace Grown

variable {made : Fin n → List LayerActivation → Prop} {roots : List RootLayer}
  {rounds : List (Fin n × List LayerActivation)} {eph : EphContext}

/-- A context keeps its roots. -/
theorem roots_eq (h : Grown made roots rounds eph) : eph.roots = (EphContext.rooted roots).roots := by
  induction h with
  | rooted => rfl
  | push _ _ _ _ hpush ih => exact (pushRound_chains hpush).1.trans ih

/-- The rounds are those of different statements. -/
theorem nodup (h : Grown made roots rounds eph) : (rounds.map (·.1)).Nodup := by
  induction h with
  | rooted => exact List.nodup_nil
  | push _ hi _ _ _ ih =>
    rw [List.map_append, List.nodup_append]
    refine ⟨ih, List.nodup_singleton _, ?_⟩
    intro a ha b hb heq
    obtain rfl := List.mem_singleton.mp hb
    exact hi (heq ▸ ha)

theorem complete (h : Grown made roots rounds eph) :
    ∀ x ∈ rounds, made x.1 x.2 ∧ CompleteRound eph.roots x.2 := by
  induction h with
  | rooted => simp
  | push _ _ hmade hround hpush ih =>
    intro x hx
    rw [(pushRound_chains hpush).1]
    rcases List.mem_append.mp hx with hx | hx
    · exact ih x hx
    · rw [List.mem_singleton.mp hx]
      exact ⟨hmade, hround⟩

/-- **All chains are made of the same rounds**, in the same order. -/
theorem chains_eq (h : Grown made roots rounds eph) :
    eph.chains = eph.roots.map fun r => rounds.flatMap fun x => layersFor x.2 r := by
  induction h with
  | rooted => rfl
  | push _ _ _ _ hpush ih =>
    obtain ⟨hroots, hchains, -⟩ := pushRound_chains hpush
    rw [hchains, hroots, ih, List.zipWith_map_right, List.zipWith_self]
    refine List.map_congr_left fun r _ => ?_
    rw [List.flatMap_append, List.flatMap_singleton]

/-- **A context that has grown by complete rounds keeps the invariant.** -/
theorem ephInvariant (h : Grown made roots rounds eph) (hpos : ∀ r ∈ roots, 0 < r.id) :
    EphInvariant made eph := by
  have hsorted : eph.roots.Pairwise fun a b => a.id < b.id := by
    rw [h.roots_eq]
    exact EphContext.pairwise_dedupRoots (List.pairwise_insertionSort _ roots)
  have hnodup : (eph.roots.map (·.id)).Nodup := by
    rw [h.roots_eq]
    exact EphContext.nodup_rooted roots
  have hmem : ∀ c ∈ eph.chains, ∃ r ∈ eph.roots, eph.chainOf r.id = c := by
    intro c hc
    obtain ⟨k, hk, rfl⟩ := List.mem_iff_getElem.mp hc
    have hkr : k < eph.roots.length := eph.parallel ▸ hk
    have hpair : (eph.roots[k], eph.chains[k]) ∈ eph.roots.zip eph.chains :=
      List.mem_iff_getElem.mpr ⟨k, by rw [List.length_zip]; omega, List.getElem_zip⟩
    exact ⟨_, List.getElem_mem hkr, EphContext.chainOf_eq hnodup hpair⟩
  have hchain : ∀ r ∈ eph.roots, eph.chainOf r.id ∈ eph.chains := by
    intro r hr
    obtain ⟨c, hc⟩ := EphContext.exists_mem_zip hr
    rw [EphContext.chainOf_eq hnodup hc]
    exact (List.of_mem_zip hc).2
  refine ⟨hsorted, fun r hr => ?_, eph.parallel, ?_, ⟨rounds, h.nodup, h.complete, h.chains_eq⟩,
    fun l => ?_, fun hne => ?_⟩
  · exact hpos r (EphContext.rooted_subset roots (h.roots_eq ▸ hr))
  · intro c hc l hl
    rw [h.chains_eq] at hc
    obtain ⟨r, -, rfl⟩ := List.mem_map.mp hc
    obtain ⟨x, hx, hl⟩ := List.mem_flatMap.mp hl
    exact (h.complete x hx).2.neg_of_mem_layersFor hl
  · rw [EphContext.mem_visibleIds]
    refine or_congr_right ⟨?_, ?_⟩
    · rintro ⟨c, hc, hl⟩
      obtain ⟨r, hr, rfl⟩ := hmem c hc
      exact ⟨r, hr, hl⟩
    · rintro ⟨r, hr, hl⟩
      exact ⟨_, hchain r hr, hl⟩
  · -- the first chain answers for all of them
    have hall : ∀ r ∈ eph.roots, (eph.hasChain = true ↔ eph.chainOf r.id ≠ []) := by
      intro r hr
      rw [EphContext.hasChain_eq (hchain r hr)]
      simp
    obtain ⟨r, hr⟩ := List.exists_mem_of_ne_nil _ hne
    exact ⟨fun hyes r' hr' => (hall r' hr').mp hyes, fun hyes => (hall r hr).mpr (hyes r hr)⟩

end Grown

/-! ### Executions -/

section Execution

variable {ρ : Type} {hashBytes : Bytes → Text} {P : Populate ρ} {canaryRootHash : Bytes}

/-- The execution of a query, with what the index hands out in the states that requests and layer
transactions lead to: the visible roots, of those that were loaded, and the layers that calls of
the cache have returned. -/
structure QueryExecution (hashBytes : Bytes → Text) (P : Populate ρ) (canaryRootHash : Bytes)
    (n : ℕ) where
  db : Database
  tree : StatementTree n
  specs : Fin n → EphContext → LabelResolutions → Except ExecError LayerInputs
  service : LayerService n
  roots : List RootLayer
  loaded : ∀ r ∈ roots, ∃ st : CacheState ρ,
    st.Reached hashBytes P (.initial canaryRootHash) ∧ r ∈ st.store.loadRootLayers
  served : ∀ i call outcome, service.withEphLayer i call = .ok outcome →
    Served hashBytes P (.initial canaryRootHash) call outcome

namespace QueryExecution

variable (X : QueryExecution hashBytes P canaryRootHash n)

/-- How the layers of the statements come to be. -/
def layers : LayerStore n := X.service.layerStore X.specs

/-- The layers that a statement materialises, on some layers it sees. -/
def Made (i : Fin n) (activations : List LayerActivation) : Prop :=
  ∃ eph resolved, X.layers i eph resolved = .ok activations

/-- The loop of `compute_roots`, once some statements have been queued. -/
def Queued (is : List (Fin n)) (st : List (PendingCompute n) × ExecutionContext n) : Prop :=
  is <+: List.finRange n ∧ queueAll X.db X.tree X.layers X.roots is = .ok st

/-- A drain, once some of its results have been applied: the next statement waits for the queue,
or all have been queued. -/
def Draining (applied rest : List (Fin n × ComputeResult)) (ctx : ExecutionContext n) : Prop :=
  ∃ is st, X.Queued is st ∧
    (is = List.finRange n ∨ ∃ i, is ++ [i] <+: List.finRange n ∧ hasPreSeed X.tree i = true) ∧
    joinAll X.db X.tree X.layers st.1 = .ok (applied ++ rest) ∧ applyAll st.2 applied = .ok ctx

/-- The rounds that are passed to `push_round`, with the contexts they are to join: by
`compute_selected` its copy of the captured one, by `apply` the shared one. -/
inductive Pushes : EphContext → List LayerActivation → Prop
  | computeSelected {is : List (Fin n)} {st : List (PendingCompute n) × ExecutionContext n}
      {p : PendingCompute n} {activations : List LayerActivation} : X.Queued is st → p ∈ st.1 →
      (X.tree.command p.statement).hasLayerSpec = true →
      X.layers p.statement p.eph p.resolved = .ok activations → Pushes p.eph activations
  | apply {applied rest : List (Fin n × ComputeResult)} {i : Fin n} {r : ComputeResult}
      {ctx : ExecutionContext n} : X.Draining applied ((i, r) :: rest) ctx →
      r.layerActivations ≠ [] → Pushes ctx.eph r.layerActivations

/-- The contexts of the execution: the shared one, also in the middle of a drain, those that
queued statements have captured, and the copies that rounds have joined. -/
inductive Reaches : EphContext → Prop
  | shared {is : List (Fin n)} {st : List (PendingCompute n) × ExecutionContext n} :
      X.Queued is st → Reaches st.2.eph
  | captured {is : List (Fin n)} {st : List (PendingCompute n) × ExecutionContext n}
      {p : PendingCompute n} : X.Queued is st → p ∈ st.1 → Reaches p.eph
  | draining {applied rest : List (Fin n × ComputeResult)} {ctx : ExecutionContext n} :
      X.Draining applied rest ctx → Reaches ctx.eph
  | joined {eph eph' : EphContext} {activations : List LayerActivation} :
      X.Pushes eph activations → eph.pushRound (roundOf activations) = some eph' → Reaches eph'

variable {X}

/-- **What a statement materialises is a complete round** of the roots it has captured. -/
theorem completeRound_of_layers {i : Fin n} {eph : EphContext} {resolved : LabelResolutions}
    {activations : List LayerActivation} (hsorted : eph.roots.Pairwise fun a b => a.id < b.id)
    (h : X.layers i eph resolved = .ok activations) : CompleteRound eph.roots activations := by
  unfold layers LayerService.layerStore at h
  split at h
  · cases h
  · split at h
    · cases h
    · obtain ⟨hevery, honly⟩ := LayerService.mem_withPartitionedLayers hsorted h
      refine ⟨hevery, fun a ha => (honly a ha).1, fun a ha => ?_⟩
      obtain ⟨-, call, outcome, hcall, hid⟩ := honly a ha
      rw [hid]
      exact (X.served i call outcome hcall).neg (.initial canaryRootHash)

/-- What a statement has computed has no layers, or a complete round of them. -/
theorem completeRound_of_computeSelected {i : Fin n} {parentScope childrenScope : ScopeContext}
    {eph : EphContext} {resolved : LabelResolutions} {r : ComputeResult}
    (hsorted : eph.roots.Pairwise fun a b => a.id < b.id)
    (h : computeSelected X.db X.tree X.layers i parentScope childrenScope eph resolved = .ok r) :
    r.layerActivations = [] ∨
      X.Made i r.layerActivations ∧ CompleteRound eph.roots r.layerActivations := by
  obtain ⟨eph', hmat, -⟩ := materialise_of_computeSelected h
  rcases pushRound_of_materialise hmat with ⟨-, hnil, -⟩ | ⟨-, hlayers, -⟩
  · exact Or.inl hnil
  · exact Or.inr ⟨⟨eph, resolved, hlayers⟩, completeRound_of_layers hsorted hlayers⟩

/-- The loop, after some statements: the shared context has grown by rounds of statements that no
longer wait, and each captured one by rounds of other statements. -/
structure GrownQueue (X : QueryExecution hashBytes P canaryRootHash n) (is : List (Fin n))
    (st : List (PendingCompute n) × ExecutionContext n) : Prop where
  shared : ∃ rounds, Grown X.Made X.roots rounds st.2.eph ∧
    ∀ j ∈ rounds.map (·.1), j ∈ is ∧ j ∉ st.1.map (·.statement)
  captured : ∀ p ∈ st.1, ∃ rounds, Grown X.Made X.roots rounds p.eph ∧ p.statement ∉ rounds.map (·.1)
  nodup : (st.1.map (·.statement)).Nodup
  subset : ∀ p ∈ st.1, p.statement ∈ is

end QueryExecution

/-- The results of a queue are those of its statements, in order. -/
theorem joinAll_eq_ok {db : Database} {t : StatementTree n} {layers : LayerStore n}
    {ps : List (PendingCompute n)} {rs : List (Fin n × ComputeResult)}
    (h : joinAll db t layers ps = .ok rs) : rs.map (·.1) = ps.map (·.statement) ∧
      ∀ x ∈ rs, ∃ p ∈ ps, x.1 = p.statement ∧
        computeSelected db t layers p.statement p.parentScope p.childrenScope p.eph p.resolved =
          .ok x.2 := by
  induction ps generalizing rs with
  | nil =>
    obtain rfl := Except.ok.inj h
    simp
  | cons p ps ih =>
    rw [joinAll] at h
    cases hr : computeSelected db t layers p.statement p.parentScope p.childrenScope p.eph
        p.resolved with
    | error e => simp [hr] at h
    | ok r =>
      cases hps : joinAll db t layers ps with
      | error e => simp [hr, hps] at h
      | ok rs' =>
        obtain rfl : (p.statement, r) :: rs' = rs := by simpa [hr, hps] using h
        obtain ⟨hmap, hall⟩ := ih hps
        refine ⟨by simp [hmap], fun x hx => ?_⟩
        rcases List.mem_cons.mp hx with rfl | hx
        · exact ⟨p, List.mem_cons_self, rfl, hr⟩
        · obtain ⟨q, hq, hx⟩ := hall x hx
          exact ⟨q, List.mem_cons_of_mem p hq, hx⟩

/-- One application: the context grows by the statement's round, if it has one. -/
theorem Grown.apply {made : Fin n → List LayerActivation → Prop} {roots : List RootLayer}
    {rounds : List (Fin n × List LayerActivation)} {ctx ctx' : ExecutionContext n}
    (h : Grown made roots rounds ctx.eph) {i : Fin n} {r : ComputeResult}
    (hi : i ∉ rounds.map (·.1))
    (hround : r.layerActivations = [] ∨
      made i r.layerActivations ∧ CompleteRound (EphContext.rooted roots).roots r.layerActivations)
    (happly : r.apply ctx i = .ok ctx') :
    ∃ rounds', Grown made roots rounds' ctx'.eph ∧
      ∀ j ∈ rounds'.map (·.1), j ∈ rounds.map (·.1) ∨ j = i := by
  rcases hround with hnil | ⟨hmade, hround⟩
  · rw [apply_eph_nil hnil happly]
    exact ⟨rounds, h, fun j hj => Or.inl hj⟩
  · rcases apply_eph happly with ⟨-, heph⟩ | hpush
    · rw [heph]
      exact ⟨rounds, h, fun j hj => Or.inl hj⟩
    · rw [← h.roots_eq] at hround
      refine ⟨_, h.push hi hmade hround hpush, fun j hj => ?_⟩
      rw [List.map_append, List.mem_append, List.map_singleton, List.mem_singleton] at hj
      exact hj

/-- The applications of a drain, one after the other. -/
theorem Grown.applyAll {made : Fin n → List LayerActivation → Prop} {roots : List RootLayer}
    {rounds : List (Fin n × List LayerActivation)} {rs : List (Fin n × ComputeResult)}
    {ctx ctx' : ExecutionContext n} (h : Grown made roots rounds ctx.eph) (hnd : (rs.map (·.1)).Nodup)
    (hdisj : ∀ x ∈ rs, x.1 ∉ rounds.map (·.1))
    (hround : ∀ x ∈ rs, x.2.layerActivations = [] ∨ made x.1 x.2.layerActivations ∧
      CompleteRound (EphContext.rooted roots).roots x.2.layerActivations)
    (happly : Askl.applyAll ctx rs = .ok ctx') :
    ∃ rounds', Grown made roots rounds' ctx'.eph ∧
      ∀ j ∈ rounds'.map (·.1), j ∈ rounds.map (·.1) ∨ j ∈ rs.map (·.1) := by
  induction rs generalizing ctx rounds with
  | nil =>
    obtain rfl := Except.ok.inj happly
    exact ⟨rounds, h, fun j hj => Or.inl hj⟩
  | cons x rs ih =>
    obtain ⟨i, r⟩ := x
    rw [Askl.applyAll] at happly
    cases hr : r.apply ctx i with
    | error e => simp [hr] at happly
    | ok ctx₁ =>
      simp only [hr] at happly
      rw [List.map_cons, List.nodup_cons] at hnd
      obtain ⟨rounds₁, h₁, hsub₁⟩ := h.apply (hdisj _ List.mem_cons_self)
        (hround _ List.mem_cons_self) hr
      have hdisj₁ : ∀ x ∈ rs, x.1 ∉ rounds₁.map (·.1) := by
        intro x hx hmem
        rcases hsub₁ x.1 hmem with hold | hid
        · exact hdisj x (List.mem_cons_of_mem _ hx) hold
        · exact hnd.1 (List.mem_map.mpr ⟨x, hx, hid⟩)
      obtain ⟨rounds', h', hsub'⟩ := ih h₁ hnd.2 hdisj₁
        (fun x hx => hround x (List.mem_cons_of_mem _ hx)) happly
      refine ⟨rounds', h', fun j hj => ?_⟩
      rcases hsub' j hj with hj | hj
      · rcases hsub₁ j hj with hj | rfl
        · exact Or.inl hj
        · exact Or.inr List.mem_cons_self
      · exact Or.inr (List.mem_cons_of_mem _ hj)

namespace QueryExecution

variable {X : QueryExecution hashBytes P canaryRootHash n}

theorem pairwise_rooted (roots : List RootLayer) :
    (EphContext.rooted roots).roots.Pairwise fun a b => a.id < b.id :=
  EphContext.pairwise_dedupRoots (List.pairwise_insertionSort _ roots)

namespace GrownQueue

variable {is : List (Fin n)} {st st' : List (PendingCompute n) × ExecutionContext n}

/-- The results of the queue have complete rounds. -/
theorem completeRounds (h : X.GrownQueue is st) {rs : List (Fin n × ComputeResult)}
    (hrs : joinAll X.db X.tree X.layers st.1 = .ok rs) :
    ∀ x ∈ rs, x.2.layerActivations = [] ∨ X.Made x.1 x.2.layerActivations ∧
      CompleteRound (EphContext.rooted X.roots).roots x.2.layerActivations := by
  intro x hx
  obtain ⟨p, hp, hid, hcompute⟩ := (joinAll_eq_ok hrs).2 x hx
  obtain ⟨rounds, hgrown, -⟩ := h.captured p hp
  have hroots := hgrown.roots_eq
  rw [← hroots, hid]
  exact completeRound_of_computeSelected (hroots ▸ pairwise_rooted X.roots) hcompute

/-- A drain, once some of its results have been applied: those that are left have not joined the
shared context. -/
theorem draining (h : X.GrownQueue is st) {applied rest : List (Fin n × ComputeResult)}
    {ctx : ExecutionContext n} (hrs : joinAll X.db X.tree X.layers st.1 = .ok (applied ++ rest))
    (happly : applyAll st.2 applied = .ok ctx) :
    ∃ rounds, Grown X.Made X.roots rounds ctx.eph ∧
      ∀ j ∈ rounds.map (·.1), j ∈ is ∧ j ∉ rest.map (·.1) := by
  obtain ⟨rounds, hgrown, hrounds⟩ := h.shared
  have hmap := (joinAll_eq_ok hrs).1
  have hnd : ((applied ++ rest).map (·.1)).Nodup := hmap ▸ h.nodup
  have hwaits : ∀ x ∈ applied ++ rest, x.1 ∈ st.1.map (·.statement) := by
    intro x hx
    rw [← hmap]
    exact List.mem_map_of_mem hx
  rw [List.map_append, List.nodup_append] at hnd
  obtain ⟨rounds', hgrown', hsub⟩ := hgrown.applyAll hnd.1
    (fun x hx hmem => (hrounds x.1 hmem).2 (hwaits x (List.mem_append_left _ hx)))
    (fun x hx => h.completeRounds hrs x (List.mem_append_left _ hx)) happly
  refine ⟨rounds', hgrown', fun j hj => ?_⟩
  rcases hsub j hj with hj | hj
  · refine ⟨(hrounds j hj).1, fun hrest => ?_⟩
    obtain ⟨x, hx, rfl⟩ := List.mem_map.mp hrest
    exact (hrounds _ hj).2 (hwaits x (List.mem_append_right _ hx))
  · refine ⟨?_, fun hrest => hnd.2.2 j hj j hrest rfl⟩
    obtain ⟨x, hx, rfl⟩ := List.mem_map.mp hj
    obtain ⟨p, hp, hid⟩ := List.mem_map.mp (hwaits x (List.mem_append_left _ hx))
    rw [← hid]
    exact h.subset p hp

/-- A drain empties the queue. -/
theorem drain (h : X.GrownQueue is st) {ctx : ExecutionContext n}
    (hdrain : drainPending X.db X.tree X.layers st.1 st.2 = .ok ctx) :
    X.GrownQueue is ([], ctx) := by
  unfold drainPending at hdrain
  split at hdrain
  · cases hdrain
  · next rs hrs =>
    rw [← List.append_nil rs] at hrs
    obtain ⟨rounds, hgrown, hrounds⟩ := h.draining hrs hdrain
    exact ⟨⟨rounds, hgrown, hrounds⟩, by simp, List.nodup_nil, by simp⟩

/-- A statement that is queued captures the shared context. -/
theorem capture (h : X.GrownQueue is st) {i : Fin n} (hi : i ∉ is) :
    X.GrownQueue (is ++ [i]) (st.1 ++ [pendingCompute X.tree st.2 i], st.2) := by
  obtain ⟨rounds, hgrown, hrounds⟩ := h.shared
  have hnew : i ∉ rounds.map (·.1) := fun hmem => hi (hrounds i hmem).1
  refine ⟨⟨rounds, hgrown, fun j hj => ?_⟩, fun p hp => ?_, ?_, fun p hp => ?_⟩
  · refine ⟨List.mem_append_left _ (hrounds j hj).1, fun hmem => ?_⟩
    rw [List.map_append, List.mem_append, List.map_singleton, List.mem_singleton] at hmem
    rcases hmem with hmem | rfl
    · exact (hrounds j hj).2 hmem
    · exact hnew hj
  · rcases List.mem_append.mp hp with hp | hp
    · exact h.captured p hp
    · rw [List.mem_singleton.mp hp]
      exact ⟨rounds, hgrown, hnew⟩
  · rw [List.map_append, List.nodup_append]
    refine ⟨h.nodup, List.nodup_singleton _, fun a ha b hb heq => ?_⟩
    obtain ⟨p, hp, rfl⟩ := List.mem_map.mp ha
    have hb : b = i := List.mem_singleton.mp hb
    exact hi (hb ▸ heq ▸ h.subset p hp)
  · rcases List.mem_append.mp hp with hp | hp
    · exact List.mem_append_left _ (h.subset p hp)
    · rw [List.mem_singleton.mp hp]
      exact List.mem_append_right _ List.mem_cons_self

/-- One turn of the loop. -/
theorem queue (h : X.GrownQueue is st) {i : Fin n} (hi : i ∉ is)
    (hq : queueStatement X.db X.tree X.layers st i = .ok st') :
    X.GrownQueue (is ++ [i]) st' := by
  unfold queueStatement at hq
  split at hq
  · obtain ⟨ctx, hdrain, rfl⟩ := Fallible.map_eq_ok.mp hq
    exact (h.drain hdrain).capture hi
  · obtain rfl := Except.ok.inj hq
    exact h.capture hi

end GrownQueue

/-- The loop keeps the contexts grown. -/
theorem grownQueue_of_queueAll {is : List (Fin n)}
    {st : List (PendingCompute n) × ExecutionContext n} (hnd : is.Nodup)
    (h : queueAll X.db X.tree X.layers X.roots is = .ok st) : X.GrownQueue is st := by
  induction is using List.reverseRecOn generalizing st with
  | nil =>
    obtain rfl := Except.ok.inj h
    exact ⟨⟨[], .rooted, by simp⟩, by simp, List.nodup_nil, by simp⟩
  | append_singleton is i ih =>
    rw [queueAll, List.foldlM_append] at h
    obtain ⟨mid, hmid, hlast⟩ := Fallible.bind_eq_ok.mp h
    rw [List.nodup_append] at hnd
    have hi : i ∉ is := fun hmem => hnd.2.2 i hmem i List.mem_cons_self rfl
    have hq : queueStatement X.db X.tree X.layers mid i = .ok st := by
      simpa [List.foldlM_cons] using hlast
    exact (ih hnd.1 hmid).queue hi hq

theorem Queued.grown {is : List (Fin n)} {st : List (PendingCompute n) × ExecutionContext n}
    (h : X.Queued is st) : X.GrownQueue is st :=
  grownQueue_of_queueAll (h.1.sublist.nodup (List.nodup_finRange n)) h.2

/-- A round joins a context that has grown by the rounds of other statements, and is complete for
its roots. -/
theorem grown_of_pushes {eph : EphContext} {activations : List LayerActivation}
    (h : X.Pushes eph activations) : ∃ (rounds : List (Fin n × List LayerActivation)) (i : Fin n),
      Grown X.Made X.roots rounds eph ∧ i ∉ rounds.map (·.1) ∧ X.Made i activations ∧
        CompleteRound eph.roots activations := by
  cases h with
  | @computeSelected is st p _ hq hp _ hlayers =>
    obtain ⟨rounds, hgrown, hi⟩ := hq.grown.captured p hp
    have hsorted := hgrown.roots_eq ▸ pairwise_rooted X.roots
    exact ⟨rounds, p.statement, hgrown, hi, ⟨p.eph, p.resolved, hlayers⟩,
      completeRound_of_layers hsorted hlayers⟩
  | @apply applied rest i r ctx hdraining hne =>
    obtain ⟨is, st, hq, -, hrs, happly⟩ := hdraining
    obtain ⟨rounds, hgrown, hrounds⟩ := hq.grown.draining hrs happly
    refine ⟨rounds, i, hgrown, fun hmem => (hrounds i hmem).2 List.mem_cons_self, ?_⟩
    rw [hgrown.roots_eq]
    exact (hq.grown.completeRounds hrs (i, r) (by simp)).resolve_left hne

/-- Every context of an execution has grown by complete rounds. -/
theorem grown_of_reaches {eph : EphContext} (h : X.Reaches eph) :
    ∃ rounds : List (Fin n × List LayerActivation), Grown X.Made X.roots rounds eph := by
  cases h with
  | shared hq =>
    obtain ⟨rounds, hgrown, -⟩ := hq.grown.shared
    exact ⟨rounds, hgrown⟩
  | captured hq hp =>
    obtain ⟨rounds, hgrown, -⟩ := hq.grown.captured _ hp
    exact ⟨rounds, hgrown⟩
  | draining hdraining =>
    obtain ⟨is, st, hq, -, hrs, happly⟩ := hdraining
    obtain ⟨rounds, hgrown, -⟩ := hq.grown.draining hrs happly
    exact ⟨rounds, hgrown⟩
  | joined hpushes hpush =>
    obtain ⟨rounds, i, hgrown, hi, hmade, hround⟩ := grown_of_pushes hpushes
    exact ⟨_, hgrown.push hi hmade hround hpush⟩

/-- The context that `compute_roots` ends with is one of them. -/
theorem reaches_of_computeRoots {ctx : ExecutionContext n}
    (h : computeRoots X.db X.tree X.layers X.roots = .ok ctx) : X.Reaches ctx.eph := by
  rw [computeRoots_eq] at h
  obtain ⟨st, hst, hdrain⟩ := Fallible.bind_eq_ok.mp h
  unfold drainPending at hdrain
  split at hdrain
  · cases hdrain
  · next rs hrs =>
    rw [← List.append_nil rs] at hrs
    exact .draining ⟨_, st, ⟨List.prefix_refl _, hst⟩, Or.inl rfl, hrs, hdrain⟩

end QueryExecution

/-- **The invariant of the layers a request sees.**  In every execution, over whatever states of
the index its roots and layers come from, every round that is passed to `push_round` names all
roots of the context it joins and no other, so that none panics, and every context keeps the
invariant. -/
theorem ephInvariant_of_execution (X : QueryExecution hashBytes P canaryRootHash n) :
    (∀ eph activations, X.Pushes eph activations →
      eph.roundMatches (roundOf activations) = true ∧
        (eph.pushRound (roundOf activations)).isSome = true) ∧
      ∀ eph, X.Reaches eph → EphInvariant X.Made eph := by
  refine ⟨fun eph activations h => ?_, fun eph h => ?_⟩
  · obtain ⟨rounds, i, -, -, -, hround⟩ := QueryExecution.grown_of_pushes h
    obtain ⟨eph', hpush⟩ := hround.exists_pushRound
    exact ⟨hround.roundMatches, by rw [hpush]; rfl⟩
  · obtain ⟨rounds, hgrown⟩ := QueryExecution.grown_of_reaches h
    refine hgrown.ephInvariant fun r hr => ?_
    obtain ⟨st, hst, hload⟩ := X.loaded r hr
    exact pos_of_loadRootLayers (.initial canaryRootHash) hst hload

end Execution

/-! ### Two blocks -/

/-- A call for a layer of the root `3`, and what a run of the cache ends by answering it with. -/
structure SampleLayer where
  call : LayerCall
  outcome : LayerOutcome
  run : List CacheAction

/-- The call for a layer of a block. -/
def blockCall (parentId baseId : Option ℤ) (block : UInt8) (part : LayerPart) : LayerCall :=
  ⟨parentId, baseId, ((⟨List.replicate 32 3, (blockSpec block).baseHash, [], part⟩ : LayerKey).hash
    polynomialHash).val, .ephemeral⟩

/-- Create the layer of a call, whose id is drawn next. -/
def createLayer (call : LayerCall) (layerId : ℤ) : List CacheAction :=
  [.openLayer call, .statement layerId, .bodyDone layerId, .markTruncated layerId,
    .markPopulated layerId, .commit layerId]

/-- The base of the first block, the base of the second, and the supplement of the second. -/
def sampleLayers : List SampleLayer :=
  let upload := [.request (.uploadIndex ⟨['p'], ['/', 'p'], [], []⟩ (some 1) (some 0) [9])]
  let first := blockCall (some 3) none 0 .base
  let second := blockCall (some 3) none 1 .base
  let supplement := blockCall (some (-1000000)) (some (-1000001)) 1 (.supplement (-1000000))
  [⟨first, ⟨-1000000, true, false⟩, upload ++ [.openLayer first]⟩,
    ⟨second, ⟨-1000001, true, false⟩, upload ++ createLayer first (-1000000) ++ [.openLayer second]⟩,
    ⟨supplement, ⟨-1000002, true, false⟩, upload ++ createLayer first (-1000000) ++
      createLayer second (-1000001) ++ [.openLayer supplement]⟩]

/-- The states of the runs. -/
def SampleLayer.states (x : SampleLayer) : Option (CacheState ℤ) :=
  actAll (fun _ => []) symbolIds (fun _ _ => true) (.initial (.initial [0])) x.run

theorem SampleLayer.served {x : SampleLayer} (hx : x ∈ sampleLayers) :
    Served (fun _ => []) symbolIds (.initial [0]) x.call x.outcome := by
  have hall : ∀ x ∈ sampleLayers, (x.states.any fun st => st.transactions.any fun t =>
      t.layer.hash == x.call.hash && t.outcome == x.outcome) = true := by decide +kernel
  obtain ⟨st, hst, hany⟩ := (Option.any_eq_true _ _).mp (hall x hx)
  obtain ⟨t, ht, hsame⟩ := List.any_eq_true.mp hany
  rw [Bool.and_eq_true, beq_iff_eq, beq_iff_eq] at hsame
  exact ⟨st, run_of_actAll hst, t, ht, hsame⟩

/-- `layer { … } ; layer { … } ; "a"` over the only project. -/
def sampleExecution : QueryExecution (fun _ => []) symbolIds [0] 3 where
  db := callDatabase
  tree := siblingTree
  specs := fun i _ _ => .ok (blockSpec (UInt8.ofNat i))
  service :=
    { sha256 := polynomialHash
      rootHash := fun r => List.replicate 32 (UInt8.ofNat r.toNat)
      scansContent := fun _ => false
      objects := fun _ => []
      withEphLayer := fun _ call => match sampleLayers.find? (·.call == call) with
        | none => .error .layer
        | some x => .ok x.outcome
      completed := fun _ roots => roots.reverse
      completed_perm := fun _ roots => List.reverse_perm roots }
  roots := [⟨3, 1⟩]
  loaded := by
    intro r hr
    obtain rfl := List.mem_singleton.mp hr
    obtain ⟨st, hst, hmem⟩ := (Option.any_eq_true _ _).mp (show
      ((actAll (fun _ => []) symbolIds (fun _ _ => true) (.initial (.initial [0]))
        [.request (.uploadIndex ⟨['p'], ['/', 'p'], [], []⟩ (some 1) (some 0) [9])]).any fun st =>
          st.store.loadRootLayers.contains ⟨3, 1⟩) = true by decide +kernel)
    exact ⟨st, run_of_actAll hst, by simpa using hmem⟩
  served := by
    intro i call outcome h
    dsimp only at h
    split at h
    · cases h
    · next x hx =>
      obtain rfl := Except.ok.inj h
      have hcall : x.call = call := by simpa using List.find?_some hx
      rw [← hcall]
      exact SampleLayer.served (List.mem_of_find?_eq_some hx)

/-- The first block's round joins the empty chain, and in the end the chain holds the layers of
both blocks. -/
theorem ephInvariant_of_blocks :
    (EphContext.rooted [⟨3, 1⟩]).roundMatches (roundOf [⟨3, -1000000, false⟩]) = true ∧
      ∃ eph, sampleExecution.Reaches eph ∧ eph.chains = [[-1000000, -1000001, -1000002]] ∧
        EphInvariant sampleExecution.Made eph := by
  obtain ⟨ctx, hctx, hchains⟩ := Fallible.map_eq_ok.mp (show
    (computeRoots sampleExecution.db sampleExecution.tree sampleExecution.layers
      sampleExecution.roots).map (·.eph.chains) = .ok [[-1000000, -1000001, -1000002]]
      by decide +kernel)
  have hreaches := QueryExecution.reaches_of_computeRoots hctx
  have hqueued : sampleExecution.Queued [0] ([pendingCompute siblingTree (.new [⟨3, 1⟩]) 0],
      .new [⟨3, 1⟩]) := ⟨⟨[1, 2], rfl⟩, rfl⟩
  have hlayers : sampleExecution.layers 0 (.rooted [⟨3, 1⟩]) ∅ = .ok [⟨3, -1000000, false⟩] := by
    decide +kernel
  have hpushes : sampleExecution.Pushes (.rooted [⟨3, 1⟩]) [⟨3, -1000000, false⟩] :=
    .computeSelected hqueued List.mem_cons_self rfl hlayers
  exact ⟨((ephInvariant_of_execution sampleExecution).1 _ _ hpushes).1, ctx.eph, hreaches, hchains,
    (ephInvariant_of_execution sampleExecution).2 _ hreaches⟩

end Askl
