import Askl.Query.SiblingOrder
import Askl.Store.LayerKeys

/-!
# What the last layer of a chain says

The key of a supplement speaks of the chain below it by the id of the chain's last layer
alone.  That is enough where every statement has materialised its layers on the chain they
were appended to: then the last layer's key determines the statement's base, its atoms and
the chain below, layer by layer.  A drain that applies two layer creators appends the second
one's layers to a chain they were not materialised on, and their last layer no longer tells
of the first one's.

## Main definitions

* `CachedLayers` — the layer cache as executions find it, one row for each key.
* `CachedLayers.layerStore` — the layers of a statement: base, atoms and supplement.
* `Sequential` — a chain that has grown by rounds, each materialised on the chain below it.
* `Execution`, `Execution.Reaches` — a query execution, and the layers seen during it.
* `StatementTree.SeparateCreators` — no drain applies two layer creators.

## Main results

* `Sequential.eq_of_getLast?` — **the last layer determines a sequential chain.**
* `Execution.chainInv_of_reaches` — with separate creators, all chains are sequential.
* `chain_of_chainLast` — **two executions that see the same last layer see the same chain.**
-/

namespace Askl

open LittleEndian

/-! ### The cache -/

/-- What `LayerSpec` says of the keys of a statement's layers. -/
structure LayerInputs where
  baseHash : Hash32
  supplementExtra : Bytes
  deriving DecidableEq

/-- The layer cache as executions find it: one row for each key, which no collection has
taken, with its flag; the identity hashes of the roots; the objects on ephemeral layers; and
whether the verbs that a base hash stands for scan them. -/
structure CachedLayers where
  sha256 : Bytes → Hash32
  rootHash : ℤ → Bytes
  row : Hash32 → ℤ
  truncated : ℤ → Bool
  scansContent : Hash32 → Bool
  objects : List Object

namespace CachedLayers

variable (C : CachedLayers)

/-- The layer of a key. -/
def layer (k : LayerKey) : ℤ := C.row (k.hash C.sha256)

/-- `eph_content_layers_grouped`, for one project. -/
def contentLayers (visible : List ℤ) (projectId : ℤ) : List ℤ :=
  ((C.objects.filter fun o => o.layer ∈ visible ∧ o.layer < 0 ∧ o.projectId = projectId).map
    (·.layer)).dedup.insertionSort (· ≤ ·)

/-- The layers of a round for one root: the base, the atoms of the content layers, and the
supplement of the chain's last layer. -/
def roundParts (content : List ℤ) (last : Option ℤ) : List LayerPart :=
  .base :: (content.map .perLayer ++ last.toList.map .supplement)

/-- The key of a layer of a round. -/
def key (rootId : ℤ) (spec : LayerInputs) (part : LayerPart) : LayerKey :=
  ⟨C.rootHash rootId, spec.baseHash, spec.supplementExtra, part⟩

/-- The content layers that a statement scans for one project. -/
def contentByProject (eph : EphContext) (spec : LayerInputs) (projectId : ℤ) : List ℤ :=
  if C.scansContent spec.baseHash && eph.hasChain then C.contentLayers eph.visibleIds projectId
  else []

/-- The keys of a statement's layers for one of the visible roots. -/
def keys (eph : EphContext) (spec : LayerInputs) (r : RootLayer) : List LayerKey :=
  (roundParts (C.contentByProject eph spec r.projectId) (eph.chainLast r.id)).map (C.key r.id spec)

/-- `with_partitioned_layers`, where every layer is found or created under its key. -/
def withPartitionedLayers (eph : EphContext) (spec : LayerInputs) : List LayerActivation :=
  eph.roots.flatMap fun r => (C.keys eph spec r).map fun k =>
    ⟨r.id, C.layer k, C.truncated (C.layer k)⟩

/-- The layers of the statements of a query, given what their verbs compute as inputs. -/
def layerStore {n : ℕ}
    (specs : Fin n → EphContext → LabelResolutions → Except ExecError LayerInputs) :
    LayerStore n := fun i eph resolved =>
  match specs i eph resolved with
  | .error e => .error e
  | .ok spec =>
    if !eph.hasChain && !spec.supplementExtra.isEmpty then .error .layer
    else .ok (C.withPartitionedLayers eph spec)

/-- Of some keys, no two with different inputs share a row, and the rows have ids of 64
bits. -/
structure Sound (S : List LayerKey) : Prop where
  injective : ∀ k ∈ S, ∀ k' ∈ S, C.layer k = C.layer k' → k.input C.sha256 = k'.input C.sha256
  fits : ∀ k ∈ S, Fits 7 (C.layer k)

/-- The objects on a root's chain belong to the root's project. -/
def OwnContent (eph : EphContext) : Prop :=
  ∀ p ∈ eph.roots.zip eph.chains, ∀ o ∈ C.objects, o.layer ∈ p.2 → o.projectId = p.1.projectId

end CachedLayers

/-! ### Sequential chains -/

section Sequential

variable {C : CachedLayers} {S S' : List LayerKey} {r : RootLayer}

/-- The content layers of a chain that a statement scans. -/
def ownContent (C : CachedLayers) (r : RootLayer) (spec : LayerInputs) (chain : List ℤ) : List ℤ :=
  if C.scansContent spec.baseHash && !chain.isEmpty then C.contentLayers chain r.projectId else []

/-- The keys of a round that is materialised on a chain. -/
def chainKeys (C : CachedLayers) (r : RootLayer) (spec : LayerInputs) (chain : List ℤ) :
    List LayerKey :=
  (CachedLayers.roundParts (ownContent C r spec chain) chain.getLast?).map (C.key r.id spec)

/-- A chain that has grown by rounds, each materialised on the chain below it, with keys
among the given ones. -/
inductive Sequential (C : CachedLayers) (S : List LayerKey) (r : RootLayer) : List ℤ → Prop
  | nil : Sequential C S r []
  | round {chain : List ℤ} {spec : LayerInputs} : Sequential C S r chain →
      chainKeys C r spec chain ⊆ S →
      Sequential C S r (chain ++ (chainKeys C r spec chain).map C.layer)

theorem Sequential.mono {chain : List ℤ} (h : Sequential C S r chain) (hsub : S ⊆ S') :
    Sequential C S' r chain := by
  induction h with
  | nil => exact .nil
  | round _ hkeys ih => exact .round ih fun k hk => hsub (hkeys hk)

/-- The layers of a chain are those of the given keys. -/
theorem Sequential.mem_keys {chain : List ℤ} (h : Sequential C S r chain) {l : ℤ}
    (hl : l ∈ chain) : ∃ k ∈ S, C.layer k = l := by
  induction h with
  | nil => cases hl
  | round _ hkeys ih =>
    rcases List.mem_append.mp hl with hl | hl
    · exact ih hl
    · obtain ⟨k, hk, rfl⟩ := List.mem_map.mp hl
      exact ⟨k, hkeys hk, rfl⟩

/-- Layers that carry content of a chain are on the chain. -/
theorem mem_of_mem_ownContent {spec : LayerInputs} {chain : List ℤ} {l : ℤ}
    (h : l ∈ ownContent C r spec chain) : l ∈ chain := by
  unfold ownContent at h
  split at h
  · rw [CachedLayers.contentLayers, List.mem_insertionSort, List.mem_dedup] at h
    obtain ⟨o, ho, rfl⟩ := List.mem_map.mp h
    exact (of_decide_eq_true (List.mem_filter.mp ho).2).1
  · cases h

theorem ownContent_nil {spec : LayerInputs} : ownContent C r spec [] = [] := by
  unfold ownContent
  rw [List.isEmpty_nil, Bool.not_true, Bool.and_false, if_neg Bool.false_ne_true]

/-- The layer that ends a round on a chain: the base if the chain is empty, and otherwise the
supplement of its last layer. -/
def topPart (chain : List ℤ) : LayerPart := chain.getLast?.elim .base .supplement

theorem getLast?_chainKeys {spec : LayerInputs} {chain : List ℤ} :
    (chainKeys C r spec chain).getLast? = some (C.key r.id spec (topPart chain)) := by
  unfold chainKeys topPart CachedLayers.roundParts
  rw [List.getLast?_map]
  cases hlast : chain.getLast? with
  | none =>
    obtain rfl := List.getLast?_eq_none_iff.mp hlast
    rw [ownContent_nil]
    rfl
  | some p =>
    rw [Option.toList_some, List.map_singleton, ← List.cons_append, List.getLast?_concat]
    rfl

theorem getLast?_round {spec : LayerInputs} {chain : List ℤ} :
    (chain ++ (chainKeys C r spec chain).map C.layer).getLast? =
      some (C.layer (C.key r.id spec (topPart chain))) := by
  rw [List.getLast?_append, List.getLast?_map, getLast?_chainKeys]
  rfl

/-- The ids a round's keys speak of are those of layers. -/
theorem Sequential.fits_part {chain : List ℤ} (h : Sequential C S r chain) (hS : C.Sound S)
    {spec : LayerInputs} {k : LayerKey} (hk : k ∈ chainKeys C r spec chain) : k.part.Fits := by
  have hchain : ∀ l ∈ chain, Fits 7 l := by
    intro l hl
    obtain ⟨k', hk', rfl⟩ := h.mem_keys hl
    exact hS.fits k' hk'
  obtain ⟨part, hpart, rfl⟩ := List.mem_map.mp hk
  rcases List.mem_cons.mp hpart with rfl | hpart
  · trivial
  · rcases List.mem_append.mp hpart with hpart | hpart
    · obtain ⟨l, hl, rfl⟩ := List.mem_map.mp hpart
      exact hchain l (mem_of_mem_ownContent hl)
    · obtain ⟨p, hp, rfl⟩ := List.mem_map.mp hpart
      exact hchain p (List.mem_of_getLast? (Option.mem_toList.mp hp))

theorem top_mem_chainKeys {spec : LayerInputs} {chain : List ℤ} :
    C.key r.id spec (topPart chain) ∈ chainKeys C r spec chain :=
  List.mem_of_getLast? getLast?_chainKeys

/-- Every round has a base. -/
theorem base_mem_chainKeys {spec : LayerInputs} {chain : List ℤ} :
    C.key r.id spec .base ∈ chainKeys C r spec chain :=
  List.mem_map_of_mem List.mem_cons_self

/-- Rounds on one chain, with one base hash and one last layer, have the same layers. -/
theorem chainKeys_layers_eq {spec spec' : LayerInputs} {chain : List ℤ}
    (hbase : spec.baseHash = spec'.baseHash)
    (htop : C.layer (C.key r.id spec (topPart chain)) =
      C.layer (C.key r.id spec' (topPart chain))) :
    (chainKeys C r spec chain).map C.layer = (chainKeys C r spec' chain).map C.layer := by
  have hcontent : ownContent C r spec chain = ownContent C r spec' chain := by
    rw [ownContent, ownContent, hbase]
  have hsalted : ∀ part, (C.key r.id spec part).salted C.sha256 =
      (C.key r.id spec' part).salted C.sha256 := by
    intro part
    rw [LayerKey.salted, LayerKey.salted]
    simp only [CachedLayers.key, hbase]
  rw [chainKeys, chainKeys, hcontent, List.map_map, List.map_map]
  refine List.map_congr_left fun part hpart => ?_
  rcases List.mem_cons.mp hpart with rfl | hpart
  · show C.row _ = C.row _
    rw [LayerKey.hash_of_base rfl, LayerKey.hash_of_base rfl, hsalted]
  · rcases List.mem_append.mp hpart with hpart | hpart
    · obtain ⟨l, -, rfl⟩ := List.mem_map.mp hpart
      show C.row (C.sha256 (perLayerInput l _)) = C.row (C.sha256 (perLayerInput l _))
      rw [hsalted]
    · -- the supplement is the last layer
      obtain ⟨p, hp, rfl⟩ := List.mem_map.mp hpart
      have hlast : topPart chain = .supplement p := by
        rw [topPart, Option.mem_toList.mp hp]
        rfl
      rw [hlast] at htop
      exact htop

/-- The part that ends a round tells the last layer below it. -/
theorem getLast?_eq_of_topPart {chain chain' : List ℤ} (h : topPart chain = topPart chain') :
    chain.getLast? = chain'.getLast? := by
  unfold topPart at h
  cases hlast : chain.getLast? with
  | none =>
    cases hlast' : chain'.getLast? with
    | none => rfl
    | some _ =>
      rw [hlast, hlast'] at h
      cases h
  | some p =>
    cases hlast' : chain'.getLast? with
    | none =>
      rw [hlast, hlast'] at h
      cases h
    | some p' =>
      rw [hlast, hlast'] at h
      exact congrArg some (LayerPart.supplement.inj h)

/-- **The last layer determines a sequential chain.** -/
theorem Sequential.eq_of_getLast? (hS : C.Sound S) {chain chain' : List ℤ}
    (h : Sequential C S r chain) (h' : Sequential C S r chain')
    (hlast : chain.getLast? = chain'.getLast?) : chain = chain' := by
  induction h generalizing chain' with
  | nil => exact (List.getLast?_eq_none_iff.mp hlast.symm).symm
  | @round below spec hbelow hkeys ih =>
    cases h' with
    | nil =>
      rw [getLast?_round] at hlast
      cases hlast
    | @round below' spec' hbelow' hkeys' =>
      rw [getLast?_round, getLast?_round] at hlast
      have htop := Option.some.inj hlast
      have hmem : _ ∈ chainKeys C r spec below := top_mem_chainKeys
      have hmem' : _ ∈ chainKeys C r spec' below' := top_mem_chainKeys
      have hsame := LayerKey.same_of_input (hbelow.fits_part hS hmem) (hbelow'.fits_part hS hmem')
        (hS.injective _ (hkeys hmem) _ (hkeys' hmem') htop)
      -- the last layer tells the layer below the round, and so the chain below it
      obtain rfl : below = below' := ih hbelow' (getLast?_eq_of_topPart hsame.part)
      -- and it tells the base
      have hbase : C.layer (C.key r.id spec .base) = C.layer (C.key r.id spec' .base) := by
        show C.row _ = C.row _
        rw [LayerKey.hash_of_base rfl, LayerKey.hash_of_base rfl]
        exact congrArg C.row hsame.salted
      have hinput := hS.injective _ (hkeys base_mem_chainKeys) _ (hkeys' base_mem_chainKeys) hbase
      rw [chainKeys_layers_eq (rootSaltedInput_inj hinput).2 htop]

end Sequential

/-! ### Executions -/

/-- The execution of a query: the database it reads, the statements, what their verbs compute
as inputs of their layers, and the visible roots. -/
structure Execution (n : ℕ) where
  db : Database
  tree : StatementTree n
  specs : Fin n → EphContext → LabelResolutions → Except ExecError LayerInputs
  roots : List RootLayer

/-- Between two layer creators there is a statement that waits for the queue, or the later of
the two waits. -/
def StatementTree.SeparateCreators {n : ℕ} (t : StatementTree n) : Prop :=
  ∀ i j, i < j → (t.command i).hasLayerSpec = true → (t.command j).hasLayerSpec = true →
    ∃ k, i < k ∧ k ≤ j ∧ hasPreSeed t k = true

instance {n : ℕ} (t : StatementTree n) : Decidable t.SeparateCreators :=
  inferInstanceAs (Decidable (∀ _ _, _ → _ → _ → _))

/-- Roots have positive ids, and every project has one. -/
structure ValidRoots (roots : List RootLayer) : Prop where
  pos : ∀ r ∈ roots, 0 < r.id
  project : ∀ r ∈ roots, ∀ r' ∈ roots, r.projectId = r'.projectId → r.id = r'.id

namespace Execution

variable {n : ℕ} (C : CachedLayers) (E : Execution n)

/-- The loop of `compute_roots` after some statements have been queued. -/
def queued (is : List (Fin n)) : Except ExecError (List (PendingCompute n) × ExecutionContext n) :=
  queueAll E.db E.tree (C.layerStore E.specs) E.roots is

/-- A statement as it was queued, with the layers it captured. -/
def snapshot (i : Fin n) : Option (PendingCompute n) :=
  match E.queued C ((List.finRange n).take (i + 1)) with
  | .error _ => none
  | .ok st => st.1.getLast?

/-- The keys of a statement's layers. -/
def statementKeys (i : Fin n) : List LayerKey :=
  match E.snapshot C i with
  | none => []
  | some p => match E.specs i p.eph p.resolved with
    | .error _ => []
    | .ok spec =>
      if (E.tree.command i).hasLayerSpec then p.eph.roots.flatMap (C.keys p.eph spec) else []

/-- The keys of all layers of the query. -/
def derivedKeys : List LayerKey := (List.finRange n).flatMap (E.statementKeys C)

/-- The layers seen during the execution: by a statement when it is queued, by its selectors
once its own layers are there, and at the end. -/
inductive Reaches : EphContext → Prop
  | queued {i : Fin n} {p : PendingCompute n} : E.snapshot C i = some p → Reaches p.eph
  | local_ {i : Fin n} {p : PendingCompute n} {activations : List LayerActivation}
      {eph : EphContext} : E.snapshot C i = some p →
      materialise (C.layerStore E.specs) (E.tree.command i) i p.eph p.resolved =
        .ok (activations, eph) → Reaches eph
  | final {ctx : ExecutionContext n} :
      computeRoots E.db E.tree (C.layerStore E.specs) E.roots = .ok ctx → Reaches ctx.eph

end Execution

/-! ### Rounds of sequential chains -/

/-- The chains of a context are sequential. -/
structure ChainInv (C : CachedLayers) (S : List LayerKey) (roots : List RootLayer)
    (eph : EphContext) : Prop where
  roots : eph.roots = (EphContext.rooted roots).roots
  sequential : ∀ p ∈ eph.roots.zip eph.chains, Sequential C S p.1 p.2

namespace EphContext

theorem dedupRoots_sublist (roots : List RootLayer) : (dedupRoots roots).Sublist roots := by
  induction roots with
  | nil => exact List.Sublist.slnil
  | cons r rs ih =>
    rw [dedupRoots]
    cases hrs : dedupRoots rs with
    | nil => simp
    | cons r' rs' =>
      rw [hrs] at ih
      show (if r.id = r'.id then r :: rs' else r :: r' :: rs').Sublist (r :: rs)
      split
      · exact ((List.sublist_cons_self r' rs').trans ih).cons_cons r
      · exact ih.cons_cons r

/-- Sorted roots without repetitions have increasing ids. -/
theorem pairwise_dedupRoots {roots : List RootLayer}
    (h : roots.Pairwise fun a b => a.id ≤ b.id) :
    (dedupRoots roots).Pairwise fun a b => a.id < b.id := by
  induction roots with
  | nil => exact List.Pairwise.nil
  | cons r rs ih =>
    obtain ⟨hr, hrs⟩ := List.pairwise_cons.mp h
    have ih := ih hrs
    have hsub := dedupRoots_sublist rs
    rw [dedupRoots]
    cases hd : dedupRoots rs with
    | nil => exact List.pairwise_singleton _ _
    | cons r' rs' =>
      rw [hd] at ih hsub
      obtain ⟨hr', hrs'⟩ := List.pairwise_cons.mp ih
      have hle : r.id ≤ r'.id := hr r' (hsub.subset List.mem_cons_self)
      show (if r.id = r'.id then r :: rs' else r :: r' :: rs').Pairwise _
      split
      · next heq =>
        refine List.pairwise_cons.mpr ⟨fun b hb => ?_, hrs'⟩
        rw [heq]
        exact hr' b hb
      · next hne =>
        refine List.pairwise_cons.mpr ⟨fun b hb => ?_, ih⟩
        rcases List.mem_cons.mp hb with rfl | hb
        · omega
        · have := hr' b hb
          omega

theorem nodup_rooted (roots : List RootLayer) : ((rooted roots).roots.map (·.id)).Nodup := by
  have hsorted := List.pairwise_insertionSort (fun a b : RootLayer => a.id ≤ b.id) roots
  rw [List.nodup_iff_pairwise_ne, List.pairwise_map]
  exact (pairwise_dedupRoots hsorted).imp fun hlt heq => by omega

theorem rooted_subset (roots : List RootLayer) : (rooted roots).roots ⊆ roots := by
  intro r hr
  exact (List.mem_insertionSort _).mp ((dedupRoots_sublist _).subset hr)

/-- The roots of the pairs of roots and chains are the roots. -/
theorem map_fst_zip (eph : EphContext) : (eph.roots.zip eph.chains).map (·.1) = eph.roots :=
  List.map_fst_zip (by rw [eph.parallel])

/-- The chain of a root is the one it is paired with. -/
theorem chainOf_eq {eph : EphContext} (hnd : (eph.roots.map (·.id)).Nodup)
    {p : RootLayer × List ℤ} (hp : p ∈ eph.roots.zip eph.chains) :
    eph.chainOf p.1.id = p.2 := by
  have hzip : ((eph.roots.zip eph.chains).map (·.1.id)).Nodup := by
    rw [← map_fst_zip eph, List.map_map] at hnd
    exact hnd
  unfold chainOf
  cases hfind : (eph.roots.zip eph.chains).find? fun q => q.1.id == p.1.id with
  | none => exact absurd (List.find?_eq_none.mp hfind p hp) (by simp)
  | some q =>
    have hq := List.mem_of_find?_eq_some hfind
    have hid : q.1.id = p.1.id := by simpa using List.find?_some hfind
    rw [List.inj_on_of_nodup_map hzip hq hp hid]
    rfl

/-- A root is paired with a chain. -/
theorem exists_mem_zip {eph : EphContext} {r : RootLayer} (hr : r ∈ eph.roots) :
    ∃ chain, (r, chain) ∈ eph.roots.zip eph.chains := by
  rw [← map_fst_zip eph] at hr
  obtain ⟨⟨r', chain⟩, hp, rfl⟩ := List.mem_map.mp hr
  exact ⟨chain, hp⟩

/-- Any chain tells whether there are chains. -/
theorem hasChain_eq {eph : EphContext} {c : List ℤ} (hc : c ∈ eph.chains) :
    eph.hasChain = !c.isEmpty := by
  unfold hasChain
  cases hchains : eph.chains with
  | nil =>
    rw [hchains] at hc
    cases hc
  | cons d ds =>
    have hd : d ∈ eph.chains := hchains ▸ List.mem_cons_self
    show (!d.isEmpty) = !c.isEmpty
    cases d with
    | nil => rw [eph.lockstep [] hd c hc rfl]
    | cons _ _ =>
      cases c with
      | nil => cases eph.lockstep [] hc _ hd rfl
      | cons _ _ => rfl

end EphContext

section Rounds

variable {C : CachedLayers} {S : List LayerKey} {roots : List RootLayer} {eph eph' : EphContext}
  {spec : LayerInputs}

/-- A root of a context is one of the given roots. -/
theorem ChainInv.mem_roots (h : ChainInv C S roots eph) {r : RootLayer} (hr : r ∈ eph.roots) :
    r ∈ roots :=
  EphContext.rooted_subset roots (h.roots ▸ hr)

theorem ChainInv.nodup (h : ChainInv C S roots eph) : (eph.roots.map (·.id)).Nodup := by
  rw [h.roots]
  exact EphContext.nodup_rooted roots

/-- The visible content of a project is on the chain of its root. -/
theorem ChainInv.contentLayers_eq (h : ChainInv C S roots eph) (hroots : ValidRoots roots)
    (hown : C.OwnContent eph) {p : RootLayer × List ℤ} (hp : p ∈ eph.roots.zip eph.chains) :
    C.contentLayers eph.visibleIds p.1.projectId = C.contentLayers p.2 p.1.projectId := by
  have hmem : ∀ o ∈ C.objects, o.layer < 0 → o.projectId = p.1.projectId →
      (o.layer ∈ eph.visibleIds ↔ o.layer ∈ p.2) := by
    intro o ho hneg hproject
    constructor
    · intro hvisible
      rcases EphContext.mem_visibleIds.mp hvisible with hroot | ⟨c, hc, hlayer⟩
      · obtain ⟨r, hr, hid⟩ := List.mem_map.mp hroot
        have hpos := hroots.pos r (h.mem_roots hr)
        omega
      · obtain ⟨k, hk, hget⟩ := List.mem_iff_getElem.mp hc
        have hkr : k < eph.roots.length := by rw [← eph.parallel]; exact hk
        have hpair : (eph.roots[k], c) ∈ eph.roots.zip eph.chains := by
          rw [List.mem_iff_getElem]
          exact ⟨k, by rw [List.length_zip]; omega, by rw [List.getElem_zip, hget]⟩
        have hq := hown _ hpair o ho hlayer
        have hid := hroots.project _ (h.mem_roots (List.of_mem_zip hpair).1) _
          (h.mem_roots (List.of_mem_zip hp).1) (hq.symm.trans hproject)
        rw [← EphContext.chainOf_eq h.nodup hp, ← hid, EphContext.chainOf_eq h.nodup hpair]
        exact hlayer
    · intro hlayer
      exact EphContext.mem_visibleIds.mpr (Or.inr ⟨p.2, (List.of_mem_zip hp).2, hlayer⟩)
  unfold CachedLayers.contentLayers
  congr 3
  refine List.filter_congr fun o ho => ?_
  rw [decide_eq_decide]
  constructor
  · rintro ⟨hvisible, hneg, hproject⟩
    exact ⟨(hmem o ho hneg hproject).mp hvisible, hneg, hproject⟩
  · rintro ⟨hlayer, hneg, hproject⟩
    exact ⟨(hmem o ho hneg hproject).mpr hlayer, hneg, hproject⟩

/-- The keys of a statement's layers for a root are those of a round on the root's chain. -/
theorem ChainInv.keys_eq (h : ChainInv C S roots eph) (hroots : ValidRoots roots)
    (hown : C.OwnContent eph) {p : RootLayer × List ℤ} (hp : p ∈ eph.roots.zip eph.chains) :
    C.keys eph spec p.1 = chainKeys C p.1 spec p.2 := by
  have hchain := EphContext.chainOf_eq h.nodup hp
  have hcontent : C.contentByProject eph spec p.1.projectId = ownContent C p.1 spec p.2 := by
    rw [CachedLayers.contentByProject, ownContent, EphContext.hasChain_eq (List.of_mem_zip hp).2,
      h.contentLayers_eq hroots hown hp]
  rw [CachedLayers.keys, chainKeys, hcontent, EphContext.chainLast, hchain]

/-- The layers for one root, among those for all of them. -/
theorem layersFor_flatMap {f : RootLayer → List LayerActivation}
    (hf : ∀ r, ∀ a ∈ f r, a.rootId = r.id) {rs : List RootLayer} (hnd : (rs.map (·.id)).Nodup)
    {r : RootLayer} (hr : r ∈ rs) : layersFor (rs.flatMap f) r = (f r).map (·.layerId) := by
  induction rs with
  | nil => cases hr
  | cons r' rs ih =>
    rw [List.map_cons, List.nodup_cons] at hnd
    have hother : ∀ {r₁ r₂ : RootLayer}, r₁.id ≠ r₂.id →
        (f r₁).filter (fun a => a.rootId == r₂.id) = [] := by
      intro r₁ r₂ hne
      refine List.filter_eq_nil_iff.mpr fun a ha heq => hne ?_
      rw [← hf r₁ a ha]
      simpa using heq
    rw [layersFor, List.flatMap_cons, List.filter_append, List.map_append]
    rcases List.mem_cons.mp hr with rfl | hr
    · have hself : (f r).filter (fun a => a.rootId == r.id) = f r :=
        List.filter_eq_self.mpr fun a ha => by simpa using hf r a ha
      have hrest : (rs.flatMap f).filter (fun a => a.rootId == r.id) = [] := by
        refine List.filter_eq_nil_iff.mpr fun a ha heq => ?_
        obtain ⟨r₁, hr₁, ha⟩ := List.mem_flatMap.mp ha
        have hid : r₁.id = r.id := by rw [← hf r₁ a ha]; simpa using heq
        exact hnd.1 (hid ▸ List.mem_map_of_mem hr₁)
      rw [hself, hrest, List.map_nil, List.append_nil]
    · have hne : r'.id ≠ r.id := fun heq => hnd.1 (heq ▸ List.mem_map_of_mem hr)
      rw [hother hne, List.map_nil, List.nil_append]
      exact ih hnd.2 hr

/-- A round that a statement has materialised for a root. -/
theorem layersFor_withPartitionedLayers (hnd : (eph.roots.map (·.id)).Nodup) {r : RootLayer}
    (hr : r ∈ eph.roots) :
    layersFor (C.withPartitionedLayers eph spec) r = (C.keys eph spec r).map C.layer := by
  rw [CachedLayers.withPartitionedLayers, layersFor_flatMap _ hnd hr, List.map_map]
  · rfl
  · intro r' a ha
    obtain ⟨k, -, rfl⟩ := List.mem_map.mp ha
    rfl

theorem mem_zip_zipWith {α β : Type*} {g : α → β → β} {l : List α} {m : List β} {p : α × β}
    (h : p ∈ l.zip (List.zipWith g l m)) : ∃ q ∈ l.zip m, p = (q.1, g q.1 q.2) := by
  induction l generalizing m with
  | nil => cases h
  | cons a l ih =>
    cases m with
    | nil => cases h
    | cons b m =>
      rcases List.mem_cons.mp h with rfl | h
      · exact ⟨(a, b), List.mem_cons_self, rfl⟩
      · obtain ⟨q, hq, rfl⟩ := ih h
        exact ⟨q, List.mem_cons_of_mem _ hq, rfl⟩

/-- **A round that was materialised on the chains it is appended to keeps them sequential.** -/
theorem ChainInv.pushRound (h : ChainInv C S roots eph) (hroots : ValidRoots roots)
    (hown : C.OwnContent eph) (hkeys : ∀ r ∈ eph.roots, C.keys eph spec r ⊆ S)
    (hpush : eph.pushRound ((C.withPartitionedLayers eph spec).map fun a => (a.rootId, a.layerId)) =
      some eph') : ChainInv C S roots eph' := by
  obtain ⟨hr, hchains, -⟩ := pushRound_chains hpush
  refine ⟨hr.trans h.roots, fun p hp => ?_⟩
  rw [hr, hchains] at hp
  obtain ⟨q, hq, rfl⟩ := mem_zip_zipWith hp
  have hqr := (List.of_mem_zip hq).1
  show Sequential C S q.1 (q.2 ++ layersFor _ q.1)
  rw [layersFor_withPartitionedLayers h.nodup hqr, h.keys_eq hroots hown hq]
  refine .round (h.sequential q hq) ?_
  rw [← h.keys_eq hroots hown hq]
  exact hkeys q.1 hqr

end Rounds

/-! ### The queue -/

section Queue

variable {n : ℕ} {db : Database} {t : StatementTree n} {layers : LayerStore n}

theorem apply_eph_nil {r : ComputeResult} {ctx ctx' : ExecutionContext n} {i : Fin n}
    (hnil : r.layerActivations = []) (h : r.apply ctx i = .ok ctx') : ctx'.eph = ctx.eph := by
  unfold ComputeResult.apply at h
  dsimp only at h
  rw [hnil, List.isEmpty_nil, if_pos rfl] at h
  obtain rfl := Except.ok.inj h
  exact eph_foldl_applySelector ctx r.selections

/-- A drain without layer creators leaves the chains as they are. -/
theorem drain_eph_of_no_creator {ps : List (PendingCompute n)} {ctx ctx' : ExecutionContext n}
    (h : drainPending db t layers ps ctx = .ok ctx')
    (hno : ∀ p ∈ ps, (t.command p.statement).hasLayerSpec = false) : ctx'.eph = ctx.eph := by
  induction ps generalizing ctx with
  | nil => rw [drainPending_nil h]
  | cons p ps ih =>
    obtain ⟨r, ctx₁, hr, happly, hrest⟩ := drainPending_cons h
    have hnil := (computeSelected_activations hr).2 (hno p List.mem_cons_self)
    rw [ih hrest fun q hq => hno q (List.mem_cons_of_mem p hq), apply_eph_nil hnil happly]

/-- **A drain with at most one layer creator** leaves the chains as they are, or with the round
of the creator, which was materialised on them. -/
theorem drain_eph {ps : List (PendingCompute n)} {ctx ctx' : ExecutionContext n}
    (h : drainPending db t layers ps ctx = .ok ctx') (hsnap : ∀ p ∈ ps, p.eph = ctx.eph)
    (hone : ps.Pairwise fun p q => ¬ ((t.command p.statement).hasLayerSpec = true ∧
      (t.command q.statement).hasLayerSpec = true)) :
    ctx'.eph = ctx.eph ∨ ∃ p ∈ ps, ∃ activations,
      materialise layers (t.command p.statement) p.statement p.eph p.resolved =
        .ok (activations, ctx'.eph) := by
  induction ps generalizing ctx with
  | nil => exact Or.inl (by rw [drainPending_nil h])
  | cons p ps ih =>
    obtain ⟨r, ctx₁, hr, happly, hrest⟩ := drainPending_cons h
    obtain ⟨hp, hps⟩ := List.pairwise_cons.mp hone
    cases hspec : (t.command p.statement).hasLayerSpec with
    | false =>
      have heph := apply_eph_nil ((computeSelected_activations hr).2 hspec) happly
      have hsnap' : ∀ q ∈ ps, q.eph = ctx₁.eph := fun q hq =>
        (hsnap q (List.mem_cons_of_mem p hq)).trans heph.symm
      rcases ih hrest hsnap' hps with hsame | ⟨q, hq, hmat⟩
      · exact Or.inl (hsame.trans heph)
      · exact Or.inr ⟨q, List.mem_cons_of_mem p hq, hmat⟩
    | true =>
      -- the rest of the queue creates no layers
      have hno : ∀ q ∈ ps, (t.command q.statement).hasLayerSpec = false := by
        intro q hq
        rw [← Bool.not_eq_true]
        exact fun hyes => hp q hq ⟨hspec, hyes⟩
      have hlast := drain_eph_of_no_creator hrest hno
      obtain ⟨eph', hmat, -⟩ := materialise_of_computeSelected hr
      rcases apply_eph happly with ⟨-, heph⟩ | hpush
      · exact Or.inl (hlast.trans heph)
      · rcases pushRound_of_materialise hmat with ⟨-, hnil, -⟩ | ⟨-, -, hpush'⟩
        · exact Or.inl (hlast.trans (apply_eph_nil hnil happly))
        · rw [hsnap p List.mem_cons_self, hpush] at hpush'
          obtain rfl := Option.some.inj hpush'
          refine Or.inr ⟨p, List.mem_cons_self, r.layerActivations, ?_⟩
          rw [hlast]
          exact hmat

end Queue

namespace Execution

variable {n : ℕ} {C : CachedLayers} {E : Execution n} {S : List LayerKey}

theorem snapshot_eq_some {i : Fin n} {p : PendingCompute n} (h : E.snapshot C i = some p) :
    ∃ st, E.queued C ((List.finRange n).take (i + 1)) = .ok st ∧ st.1.getLast? = some p := by
  unfold snapshot at h
  split at h
  · cases h
  · next st hst => exact ⟨st, hst, h⟩

/-- The layers a statement materialises on what it captured have keys of the execution. -/
theorem chainInv_of_materialise (hroots : ValidRoots E.roots)
    (hown : ∀ eph, E.Reaches C eph → C.OwnContent eph) {i : Fin n} {p : PendingCompute n}
    (hp : E.snapshot C i = some p) (h : ChainInv C (E.derivedKeys C) E.roots p.eph)
    {activations : List LayerActivation} {eph : EphContext}
    (hmat : materialise (C.layerStore E.specs) (E.tree.command i) i p.eph p.resolved =
      .ok (activations, eph)) : ChainInv C (E.derivedKeys C) E.roots eph := by
  rcases pushRound_of_materialise hmat with ⟨-, -, rfl⟩ | ⟨hspec, hlayers, hpush⟩
  · exact h
  · unfold CachedLayers.layerStore at hlayers
    split at hlayers
    · cases hlayers
    · next spec hs =>
      split at hlayers
      · cases hlayers
      · obtain rfl := Except.ok.inj hlayers
        refine h.pushRound hroots (hown _ (.queued hp)) (fun r hr k hk => ?_) hpush
        refine List.mem_flatMap.mpr ⟨i, List.mem_finRange i, ?_⟩
        unfold statementKeys
        rw [hp]
        simp only [hs]
        rw [if_pos hspec]
        exact List.mem_flatMap.mpr ⟨r, hr, hk⟩

/-- The loop, after the first statements: the chains are sequential, and what waits in the
queue has captured them; nothing behind it has to wait. -/
structure QueueChains (C : CachedLayers) (E : Execution n) (m : ℕ)
    (st : List (PendingCompute n) × ExecutionContext n) : Prop where
  chain : ChainInv C (E.derivedKeys C) E.roots st.2.eph
  captured : ∀ p ∈ st.1, p.eph = st.2.eph
  snapshot : ∀ p ∈ st.1, E.snapshot C p.statement = some p
  sorted : st.1.Pairwise fun p q => p.statement < q.statement
  queued : ∀ p ∈ st.1, (p.statement : ℕ) < m
  quiet : ∀ p ∈ st.1, ∀ k : Fin n, (k : ℕ) < m → p.statement < k → hasPreSeed E.tree k = false

namespace QueueChains

variable {m : ℕ} {pending : List (PendingCompute n)} {ctx ctx' : ExecutionContext n}

theorem start : QueueChains C E 0 ([], .new E.roots) where
  chain := by
    refine ⟨rfl, fun p hp => ?_⟩
    have hchain := (List.of_mem_zip hp).2
    obtain ⟨_, -, heq⟩ := List.mem_map.mp hchain
    obtain ⟨r, chain⟩ := p
    obtain rfl : [] = chain := heq
    exact .nil
  captured := by simp
  snapshot := by simp
  sorted := List.Pairwise.nil
  queued := by simp
  quiet := by simp

/-- Of the layer creators that wait together there is at most one. -/
theorem one_creator (h : QueueChains C E m (pending, ctx)) (hsep : E.tree.SeparateCreators) :
    pending.Pairwise fun p q => ¬ ((E.tree.command p.statement).hasLayerSpec = true ∧
      (E.tree.command q.statement).hasLayerSpec = true) := by
  refine h.sorted.imp_of_mem fun {p q} hp hq hlt hboth => ?_
  obtain ⟨k, hpk, hkq, hwait⟩ := hsep _ _ hlt hboth.1 hboth.2
  have hqm := h.queued q hq
  have hk : (k : ℕ) < m := lt_of_le_of_lt hkq hqm
  rw [h.quiet p hp k hk hpk] at hwait
  cases hwait

/-- A drain keeps the chains sequential. -/
theorem drain (h : QueueChains C E m (pending, ctx)) (hsep : E.tree.SeparateCreators)
    (hroots : ValidRoots E.roots) (hown : ∀ eph, E.Reaches C eph → C.OwnContent eph)
    (hdrain : drainPending E.db E.tree (C.layerStore E.specs) pending ctx = .ok ctx') :
    ChainInv C (E.derivedKeys C) E.roots ctx'.eph := by
  rcases drain_eph hdrain h.captured (h.one_creator hsep) with hsame | ⟨p, hp, acts, hmat⟩
  · rw [hsame]
    exact h.chain
  · refine chainInv_of_materialise hroots hown (h.snapshot p hp) ?_ hmat
    rw [h.captured p hp]
    exact h.chain

/-- One turn of the loop. -/
theorem queue {i : Fin n} {st st' : List (PendingCompute n) × ExecutionContext n}
    (h : QueueChains C E i st) (hsep : E.tree.SeparateCreators) (hroots : ValidRoots E.roots)
    (hown : ∀ eph, E.Reaches C eph → C.OwnContent eph)
    (hq : queueStatement E.db E.tree (C.layerStore E.specs) st i = .ok st')
    (hst' : E.queued C ((List.finRange n).take (i + 1)) = .ok st') :
    QueueChains C E (i + 1) st' := by
  have hsnap : E.snapshot C i = some (pendingCompute E.tree st'.2 i) := by
    unfold Execution.snapshot
    rw [hst']
    exact getLast?_queueStatement hq
  unfold queueStatement at hq
  split at hq
  · -- the queue has been drained, and the statement waits alone
    obtain ⟨ctx', hdrain, rfl⟩ := Fallible.map_eq_ok.mp hq
    refine ⟨h.drain hsep hroots hown hdrain, ?_, ?_, List.pairwise_singleton _ _, ?_, ?_⟩
    · intro p hp
      rw [List.mem_singleton.mp hp]
      rfl
    · intro p hp
      rw [List.mem_singleton.mp hp]
      exact hsnap
    · intro p hp
      rw [List.mem_singleton.mp hp]
      exact Nat.lt_succ_self _
    · intro p hp k hk hlt
      rw [List.mem_singleton.mp hp] at hlt
      have hlt' : (i : ℕ) < k := hlt
      omega
  · next hno =>
    obtain rfl := Except.ok.inj hq
    refine ⟨h.chain, ?_, ?_, ?_, ?_, ?_⟩
    · intro p hp
      rcases List.mem_append.mp hp with hp | hp
      · exact h.captured p hp
      · rw [List.mem_singleton.mp hp]
        rfl
    · intro p hp
      rcases List.mem_append.mp hp with hp | hp
      · exact h.snapshot p hp
      · rw [List.mem_singleton.mp hp]
        exact hsnap
    · rw [List.pairwise_append]
      refine ⟨h.sorted, List.pairwise_singleton _ _, fun p hp q hq => ?_⟩
      rw [List.mem_singleton.mp hq]
      exact h.queued p hp
    · intro p hp
      rcases List.mem_append.mp hp with hp | hp
      · have hlt := h.queued p hp
        omega
      · rw [List.mem_singleton.mp hp]
        exact Nat.lt_succ_self _
    · intro p hp k hk hlt
      rcases List.mem_append.mp hp with hp | hp
      · by_cases hki : (k : ℕ) < i
        · exact h.quiet p hp k hki hlt
        · obtain rfl : k = i := Fin.ext (by omega)
          simpa using hno
      · rw [List.mem_singleton.mp hp] at hlt
        have hlt' : (i : ℕ) < k := hlt
        omega

end QueueChains

/-- The loop keeps the chains sequential. -/
theorem queueChains_of_queued (hsep : E.tree.SeparateCreators) (hroots : ValidRoots E.roots)
    (hown : ∀ eph, E.Reaches C eph → C.OwnContent eph) {m : ℕ} (hm : m ≤ n)
    {st : List (PendingCompute n) × ExecutionContext n}
    (h : E.queued C ((List.finRange n).take m) = .ok st) : QueueChains C E m st := by
  induction m generalizing st with
  | zero =>
    obtain rfl := Except.ok.inj h
    exact .start
  | succ m ih =>
    have hsplit := take_finRange_succ (⟨m, hm⟩ : Fin n)
    have hst' := h
    rw [hsplit] at h
    unfold queued queueAll at h
    rw [List.foldlM_append] at h
    obtain ⟨mid, hmid, hlast⟩ := Fallible.bind_eq_ok.mp h
    have hq : queueStatement E.db E.tree (C.layerStore E.specs) mid ⟨m, hm⟩ = .ok st := by
      simpa [List.foldlM_cons] using hlast
    have hinv := ih (by omega) hmid
    exact QueueChains.queue (i := ⟨m, hm⟩) hinv hsep hroots hown hq hst'

/-- **With separate creators, all chains that are seen are sequential.** -/
theorem chainInv_of_reaches (hsep : E.tree.SeparateCreators) (hroots : ValidRoots E.roots)
    (hown : ∀ eph, E.Reaches C eph → C.OwnContent eph) {eph : EphContext}
    (h : E.Reaches C eph) : ChainInv C (E.derivedKeys C) E.roots eph := by
  have hcaptured : ∀ {i : Fin n} {p : PendingCompute n}, E.snapshot C i = some p →
      ChainInv C (E.derivedKeys C) E.roots p.eph := by
    intro i p hp
    obtain ⟨st, hst, hlast⟩ := snapshot_eq_some hp
    have hinv := queueChains_of_queued hsep hroots hown i.isLt hst
    rw [hinv.captured p (List.mem_of_getLast? hlast)]
    exact hinv.chain
  cases h with
  | queued hp => exact hcaptured hp
  | local_ hp hmat => exact chainInv_of_materialise hroots hown hp (hcaptured hp) hmat
  | final hctx =>
    rw [computeRoots_eq] at hctx
    obtain ⟨st, hst, hdrain⟩ := Fallible.bind_eq_ok.mp hctx
    have hall : (List.finRange n).take n = List.finRange n :=
      List.take_of_length_le (by rw [List.length_finRange])
    have hinv := queueChains_of_queued hsep hroots hown le_rfl (hall.symm ▸ hst)
    exact hinv.drain hsep hroots hown hdrain

end Execution

/-- **The last layer determines the chain.**  Two executions against one layer cache, neither of
which drains two layer creators together, that see the same last layer of a root's chain see
the same chain. -/
theorem chain_of_chainLast {C : CachedLayers} {n₁ n₂ : ℕ} {E₁ : Execution n₁} {E₂ : Execution n₂}
    (hsound : C.Sound (E₁.derivedKeys C ++ E₂.derivedKeys C))
    (hroots₁ : ValidRoots E₁.roots) (hroots₂ : ValidRoots E₂.roots)
    (hown₁ : ∀ eph, E₁.Reaches C eph → C.OwnContent eph)
    (hown₂ : ∀ eph, E₂.Reaches C eph → C.OwnContent eph)
    (hsep₁ : E₁.tree.SeparateCreators) (hsep₂ : E₂.tree.SeparateCreators)
    {eph₁ eph₂ : EphContext} (h₁ : E₁.Reaches C eph₁) (h₂ : E₂.Reaches C eph₂) {r : RootLayer}
    (hr₁ : r ∈ eph₁.roots) (hr₂ : r ∈ eph₂.roots)
    (hlast : eph₁.chainLast r.id = eph₂.chainLast r.id) :
    eph₁.chainOf r.id = eph₂.chainOf r.id := by
  have hinv₁ := Execution.chainInv_of_reaches hsep₁ hroots₁ hown₁ h₁
  have hinv₂ := Execution.chainInv_of_reaches hsep₂ hroots₂ hown₂ h₂
  obtain ⟨c₁, hc₁⟩ := EphContext.exists_mem_zip hr₁
  obtain ⟨c₂, hc₂⟩ := EphContext.exists_mem_zip hr₂
  have heq₁ : eph₁.chainOf r.id = c₁ := EphContext.chainOf_eq hinv₁.nodup hc₁
  have heq₂ : eph₂.chainOf r.id = c₂ := EphContext.chainOf_eq hinv₂.nodup hc₂
  have hseq₁ := (hinv₁.sequential _ hc₁).mono (List.subset_append_left _ (E₂.derivedKeys C))
  have hseq₂ := (hinv₂.sequential _ hc₂).mono (List.subset_append_right (E₁.derivedKeys C) _)
  rw [EphContext.chainLast, EphContext.chainLast] at hlast
  rw [heq₁, heq₂] at hlast ⊢
  exact hseq₁.eq_of_getLast? hsound hseq₂ hlast

/-- A query whose layer creators all stand at the top level separates them. -/
theorem separateCreators_of_topLevel {n : ℕ} {t : StatementTree n}
    (h : ∀ i, (t.command i).hasLayerSpec = true → t.parent i = none) : t.SeparateCreators := by
  intro i j hlt hi hj
  exact ⟨j, hlt, le_rfl, hasPreSeed_of_creator (h j hj) (h i hi) hlt hi⟩

/-! ### Two blocks -/

/-- A cache for short runs, without content on ephemeral layers. -/
def sampleCache : CachedLayers where
  sha256 := polynomialHash
  rootHash := fun r => List.replicate 32 (UInt8.ofNat r.toNat)
  row := fun h => -1000000 - ((h.val.take 6).foldl (fun n b => n * 256 + b.toNat) 0 : ℕ)
  truncated := fun _ => false
  scansContent := fun _ => false
  objects := []

/-- The inputs of a block. -/
def blockSpec (block : UInt8) : LayerInputs := ⟨.fill block, []⟩

/-- The two blocks of `layer { … } ; layer { … } ; "a"`, at the top level. -/
def topLevelBlocks (roots : List RootLayer) : Execution 3 where
  db := callDatabase
  tree := siblingTree
  specs := fun i _ _ => .ok (blockSpec (UInt8.ofNat i))
  roots := roots

/-- What is left of an execution's layers for the first project. -/
def firstChain {n : ℕ} (ctx : ExecutionContext n) : Bool × List ℤ :=
  (ctx.eph.roots.contains ⟨1, 1⟩, ctx.eph.chainOf 1)

/-- The layers of a block under the first project's root. -/
def blockLayer (block : UInt8) (part : LayerPart) : ℤ :=
  sampleCache.layer (sampleCache.key 1 (blockSpec block) part)

/-- Two executions of the query, one of which sees a second project, have the same chain of
three layers. -/
theorem chain_of_topLevelBlocks : ∃ eph₁ eph₂,
    (topLevelBlocks [⟨1, 1⟩]).Reaches sampleCache eph₁ ∧
      (topLevelBlocks [⟨1, 1⟩, ⟨2, 2⟩]).Reaches sampleCache eph₂ ∧
        (eph₁.chainOf 1).length = 3 ∧ eph₁.chainOf 1 = eph₂.chainOf 1 := by
  have hrun₁ : (computeRoots callDatabase siblingTree (sampleCache.layerStore
      (topLevelBlocks [⟨1, 1⟩]).specs) [⟨1, 1⟩]).map firstChain =
        .ok (true, [blockLayer 0 .base, blockLayer 1 .base,
          blockLayer 1 (.supplement (blockLayer 0 .base))]) := by decide +kernel
  have hrun₂ : (computeRoots callDatabase siblingTree (sampleCache.layerStore
      (topLevelBlocks [⟨1, 1⟩, ⟨2, 2⟩]).specs) [⟨1, 1⟩, ⟨2, 2⟩]).map
        (fun ctx => ((firstChain ctx).1, ctx.eph.chainLast 1)) =
          .ok (true, some (blockLayer 1 (.supplement (blockLayer 0 .base)))) := by decide +kernel
  obtain ⟨ctx₁, hctx₁, h₁⟩ := Fallible.map_eq_ok.mp hrun₁
  obtain ⟨ctx₂, hctx₂, h₂⟩ := Fallible.map_eq_ok.mp hrun₂
  obtain ⟨hr₁, hchain₁⟩ := Prod.mk.inj h₁
  obtain ⟨hr₂, hlast₂⟩ := Prod.mk.inj h₂
  have hr₂ : ⟨1, 1⟩ ∈ ctx₂.eph.roots := by simpa [firstChain] using hr₂
  have hown : ∀ {roots} eph, (topLevelBlocks roots).Reaches sampleCache eph →
      sampleCache.OwnContent eph := fun _ _ _ _ _ ho => by cases ho
  have hlast : ctx₁.eph.chainLast 1 = ctx₂.eph.chainLast 1 := by
    rw [hlast₂, EphContext.chainLast, hchain₁, List.getLast?_cons_cons, List.getLast?_cons_cons,
      List.getLast?_singleton]
  refine ⟨ctx₁.eph, ctx₂.eph, .final hctx₁, .final hctx₂, by rw [hchain₁]; rfl, ?_⟩
  exact chain_of_chainLast (r := ⟨1, 1⟩) ⟨by decide +kernel, by decide +kernel⟩
    ⟨by decide, by decide⟩ ⟨by decide, by decide⟩ hown hown
    (separateCreators_of_topLevel fun _ _ => rfl) (separateCreators_of_topLevel fun _ _ => rfl)
    (.final hctx₁) (.final hctx₂) (by simpa using hr₁) hr₂ hlast

/-- `"a" { layer { … } ; layer { … } }`, or the last block alone. -/
def nestedBlocks : Execution 3 where
  db := callDatabase
  tree := .ofChecked
    (fun i => match i with
      | 0 => .plain [.plain 0 (.name (nameFilter ['a']) none)]
      | 1 => .plain [.plain 1 (.layer [] false)]
      | 2 => .plain [.plain 2 (.layer [] false)])
    (fun i => if i = 0 then none else some 0) ⟨true, true⟩ (by decide)
  specs := fun i _ _ => .ok (blockSpec (UInt8.ofNat i))
  roots := [⟨1, 1⟩]

/-- `"a" { layer { … } }`, with the second of the two blocks. -/
def nestedBlock : Execution 2 where
  db := callDatabase
  tree := .ofChecked
    (fun i => match i with
      | 0 => .plain [.plain 0 (.name (nameFilter ['a']) none)]
      | 1 => .plain [.plain 1 (.layer [] false)])
    (fun i => if i = 0 then none else some 0) ⟨true, true⟩ (by decide)
  specs := fun _ _ _ => .ok (blockSpec 2)
  roots := [⟨1, 1⟩]

/-- The last layer of both is the base of the second block. -/
theorem not_chain_of_nestedBlocks :
    ¬ ∀ (C : CachedLayers) (n₁ n₂ : ℕ) (E₁ : Execution n₁) (E₂ : Execution n₂),
      C.Sound (E₁.derivedKeys C ++ E₂.derivedKeys C) → ValidRoots E₁.roots → ValidRoots E₂.roots →
        (∀ eph, E₁.Reaches C eph → C.OwnContent eph) →
        (∀ eph, E₂.Reaches C eph → C.OwnContent eph) →
        ∀ eph₁ eph₂, E₁.Reaches C eph₁ → E₂.Reaches C eph₂ → ∀ r : RootLayer,
          r ∈ eph₁.roots → r ∈ eph₂.roots → eph₁.chainLast r.id = eph₂.chainLast r.id →
            ∀ l, l ∈ eph₁.chainOf r.id ↔ l ∈ eph₂.chainOf r.id := by
  intro h
  have hrun₁ : (computeRoots callDatabase nestedBlocks.tree (sampleCache.layerStore
      nestedBlocks.specs) [⟨1, 1⟩]).map firstChain =
        .ok (true, [blockLayer 1 .base, blockLayer 2 .base]) := by decide +kernel
  have hrun₂ : (computeRoots callDatabase nestedBlock.tree (sampleCache.layerStore
      nestedBlock.specs) [⟨1, 1⟩]).map firstChain =
        .ok (true, [blockLayer 2 .base]) := by decide +kernel
  obtain ⟨ctx₁, hctx₁, h₁⟩ := Fallible.map_eq_ok.mp hrun₁
  obtain ⟨ctx₂, hctx₂, h₂⟩ := Fallible.map_eq_ok.mp hrun₂
  obtain ⟨hr₁, hchain₁⟩ := Prod.mk.inj h₁
  obtain ⟨hr₂, hchain₂⟩ := Prod.mk.inj h₂
  have hlast : ctx₁.eph.chainLast 1 = ctx₂.eph.chainLast 1 := by
    rw [EphContext.chainLast, EphContext.chainLast, hchain₁, hchain₂, List.getLast?_cons_cons]
  have hsame := h sampleCache 3 2 nestedBlocks nestedBlock ⟨by decide +kernel, by decide +kernel⟩
    ⟨by decide, by decide⟩ ⟨by decide, by decide⟩ (fun _ _ _ _ _ ho => by cases ho)
    (fun _ _ _ _ _ ho => by cases ho) ctx₁.eph ctx₂.eph (.final hctx₁) (.final hctx₂) ⟨1, 1⟩
    (by simpa using hr₁) (by simpa using hr₂) hlast (blockLayer 1 .base)
  rw [hchain₁, hchain₂] at hsame
  have hmem := hsame.mp List.mem_cons_self
  exact absurd (List.mem_singleton.mp hmem) (by decide +kernel)

end Askl
