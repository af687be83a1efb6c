import Askl.Index.Queries

/-!
# Partitioned loading

The loader splits a query in two: the rows visible through the roots alone, which
are shared between requests, and the guarded rows that touch the request's own
ephemeral layers.  Their merge is the query under combined visibility.

## Main definitions

* `cachedLoadPartitioned` — the loader, over a build closure.
* `Splits` — a build closure selects base rows by the visibility of fixed columns.

## Main results

* `Splits.perm` — **the merged branches are the combined rows.**
* `splits_currentQuery` and its like — every shared builder splits.
* `partitioned_load_exact` — the loader is exact on every shared query.
-/

namespace Askl

open Keyed

variable {R K : Type*} [DecidableEq K]

/-- `cached_load_partitioned`: chain-dependent queries run once under combined
visibility, and without a chain the root-only branch is already everything. -/
def cachedLoadPartitioned (key : R → K) (eph : EphContext) (chainDependent : Bool)
    (build : VisibilitySpec → Query R) : List R :=
  if chainDependent then (build (.combined eph.visibleIds)).rows
  else if !eph.hasChain then (build (.rootOnly eph.rootIds)).rows
  else dedupByKey key []
    ((build (.rootOnly eph.rootIds)).rows ++ (build (.ephTouching eph.visibleIds)).rows)

/-! ### The split of one query -/

/-- A build closure that, in every branch, records the columns `cols` and keeps the
base rows whose columns are visible and which pass the guard. -/
structure Splits (build : VisibilitySpec → Query R) (base : List R) (cols : List (R → ℤ)) :
    Prop where
  applied : ∀ vis, (build vis).applied = cols
  rows : ∀ vis, (build vis).rows = base.filter fun r =>
    cols.all (fun c => vis.admits (c r)) && Query.guardPasses vis cols r

namespace Splits

variable {build : VisibilitySpec → Query R} {base : List R} {cols : List (R → ℤ)}
  {eph : EphContext}

/-- Among rows with visible columns, those of the persistent branch are the ones the
guard drops. -/
theorem all_rootOnly_iff (heph : eph.SignConsistent) {r : R}
    (hvis : ∀ c ∈ cols, c r ∈ eph.visibleIds) :
    (∀ c ∈ cols, c r ∈ eph.rootIds) ↔ ∀ c ∈ cols, 0 < c r := by
  constructor
  · intro h c hc
    exact (heph.mem_rootIds_iff (hvis c hc)).mp (h c hc)
  · intro h c hc
    exact (heph.mem_rootIds_iff (hvis c hc)).mpr (h c hc)

/-- A root-only row is visible in every branch. -/
theorem visible_of_rootIds {r : R} (h : ∀ c ∈ cols, c r ∈ eph.rootIds) :
    ∀ c ∈ cols, c r ∈ eph.visibleIds :=
  fun c hc => EphContext.mem_visibleIds.mpr (Or.inl (h c hc))

/-- **The merged branches are the combined rows.**  The branches are disjoint by the
guard, exhaustive by the sign convention, and their rows have distinct keys, so the
merge drops nothing. -/
theorem perm (hs : Splits build base cols) (heph : eph.SignConsistent) (hcols : cols ≠ [])
    {key : R → K} (hkey : (base.map key).Nodup) :
    (cachedLoadPartitioned key eph false build).Perm (build (.combined eph.visibleIds)).rows := by
  have hcomb : (build (.combined eph.visibleIds)).rows =
      base.filter fun r => decide (∀ c ∈ cols, c r ∈ eph.visibleIds) := by
    rw [hs.rows]
    refine List.filter_congr fun r _ => ?_
    simp [Query.guardPasses, VisibilitySpec.visible, VisibilitySpec.admits, List.all_eq]
  have hroot : (build (.rootOnly eph.rootIds)).rows =
      base.filter fun r => decide (∀ c ∈ cols, c r ∈ eph.rootIds) := by
    rw [hs.rows]
    refine List.filter_congr fun r _ => ?_
    simp [Query.guardPasses, VisibilitySpec.visible, VisibilitySpec.admits, List.all_eq]
  have hne : cols.isEmpty = false := by simpa using hcols
  have htouch : (build (.ephTouching eph.visibleIds)).rows =
      base.filter fun r => decide ((∀ c ∈ cols, c r ∈ eph.visibleIds) ∧
        ¬ ∀ c ∈ cols, 0 < c r) := by
    rw [hs.rows]
    refine List.filter_congr fun r _ => ?_
    simp only [Query.guardPasses, VisibilitySpec.admits, VisibilitySpec.visible, hne,
      Bool.false_or, Bool.decide_and, List.all_eq, List.contains_iff_mem, decide_eq_true_eq,
      decide_not]
  have hperm : ((build (.rootOnly eph.rootIds)).rows ++
      (build (.ephTouching eph.visibleIds)).rows).Perm
      (build (.combined eph.visibleIds)).rows := by
    rw [hcomb, hroot, htouch]
    refine filter_append_filter_perm (fun r _ hp hq => ?_) (fun r _ => ?_)
    · simp only [decide_eq_true_eq] at hp hq
      exact hq.2 ((all_rootOnly_iff heph hq.1).mp hp)
    · rw [← Bool.decide_or]
      refine decide_eq_decide.mpr ⟨fun h => ?_, fun h => ?_⟩
      · by_cases hpos : ∀ c ∈ cols, 0 < c r
        · exact Or.inl ((all_rootOnly_iff heph h).mpr hpos)
        · exact Or.inr ⟨h, hpos⟩
      · rcases h with h | h
        · exact visible_of_rootIds h
        · exact h.1
  unfold cachedLoadPartitioned
  rw [if_neg (by simp)]
  cases hchain : eph.hasChain with
  | false =>
    rw [if_pos (by simp), hcomb, hroot, EphContext.visibleIds_eq_rootIds hchain]
  | true =>
    rw [if_neg (by simp), dedupByKey_eq_self ?_ (by simp)]
    · exact hperm
    · rw [(hperm.map key).nodup_iff, hcomb]
      exact hkey.sublist (List.filter_sublist.map key)

/-- Rows of the combined query have visible columns. -/
theorem visible (hs : Splits build base cols) :
    ∀ r ∈ (build (.combined eph.visibleIds)).rows, ∀ c ∈ cols, c r ∈ eph.visibleIds := by
  intro r hr c hc
  rw [hs.rows, List.mem_filter, Bool.and_eq_true, List.all_eq_true] at hr
  exact VisibilitySpec.admits_iff.mp (hr.2.1 c hc)

omit [DecidableEq K] in
/-- The keys of the combined rows are distinct. -/
theorem nodup_keys (hs : Splits build base cols) {key : R → K} (hkey : (base.map key).Nodup)
    (vis : VisibilitySpec) : ((build vis).rows.map key).Nodup := by
  rw [hs.rows]
  exact hkey.sublist (List.filter_sublist.map key)

end Splits

/-! ### The shared builders split -/

variable (db : Database) {f : CompositeFilter} (sourceIds : List ℤ)

theorem splits_currentQuery (f : CompositeFilter) : Splits (currentQuery db f)
    ((currentRows db).filter (Query.passes (f.composeCurrent db)))
    [(·.symbol.layer), (·.symbolInstance.layer)] where
  applied vis := by simp [currentQuery, buildCurrentQuery]
  rows vis := by
    simp only [currentQuery, buildCurrentQuery, Query.rows_guard, Query.rows_filterOpt,
      Query.rows_pred, Query.rows_ofRows, Query.applied_filterOpt, Query.applied_pred,
      Query.applied_ofRows, List.nil_append, List.cons_append, List.filter_filter]
    refine List.filter_congr fun r _ => ?_
    simp only [List.all_cons, List.all_nil, Bool.and_true]
    grind

/-- The rows of the parents query before visibility. -/
def parentsBase (f : CompositeFilter) (scopeIds : Option (List ℤ)) : List ParentsRow :=
  (parentsRows db).filter fun r =>
    r.parentDecl.offsetRange.contains r.symbolRef.fromOffsetRange &&
      sourceIds.contains r.symbolInstance.id && Query.passes f.composeParents r &&
      Query.passes (scopeIds.map fun ids r => ids.contains r.parentDecl.id) r

theorem splits_parentsQuery (f : CompositeFilter) (scopeIds : Option (List ℤ)) :
    Splits (parentsQuery db f sourceIds scopeIds) (parentsBase db sourceIds f scopeIds)
      [(·.symbolRef.layer), (·.symbol.layer), (·.symbolInstance.layer), (·.parentDecl.layer),
        (·.parentSymbol.layer)] where
  applied vis := by simp [parentsQuery, buildParentsQuery]
  rows vis := by
    simp only [parentsQuery, buildParentsQuery, parentsBase, Query.rows_guard,
      Query.rows_filterOpt, Query.rows_filter, Query.rows_pred, Query.rows_ofRows,
      Query.applied_filterOpt, Query.applied_filter, Query.applied_pred, Query.applied_ofRows,
      List.nil_append, List.cons_append, List.filter_filter]
    refine List.filter_congr fun r _ => ?_
    simp only [List.all_cons, List.all_nil, Bool.and_true]
    grind

/-- The rows of the children query before visibility. -/
def childrenBase (f : CompositeFilter) (scopeIds : Option (List ℤ)) : List ChildrenRow :=
  (childrenRows db).filter fun r =>
    r.parentDecl.offsetRange.contains r.symbolRef.fromOffsetRange &&
      sourceIds.contains r.parentDecl.id &&
      Query.passes (f.composeChildren db (.combined [])) r &&
      Query.passes (scopeIds.map fun ids r => ids.contains r.symbolInstance.id) r

theorem splits_childrenQuery (hf : f.isChainDependent = false) (scopeIds : Option (List ℤ)) :
    Splits (childrenQuery db f sourceIds scopeIds) (childrenBase db sourceIds f scopeIds)
      [(·.symbolRef.layer), (·.symbol.layer), (·.symbolInstance.layer), (·.parentDecl.layer),
        (·.parentSymbol.layer)] where
  applied vis := by simp [childrenQuery, buildChildrenQuery]
  rows vis := by
    simp only [childrenQuery, buildChildrenQuery, childrenBase, Query.rows_guard,
      Query.rows_filterOpt, Query.rows_filter, Query.rows_pred, Query.rows_ofRows,
      Query.applied_filterOpt, Query.applied_filter, Query.applied_pred, Query.applied_ofRows,
      List.nil_append, List.cons_append, List.filter_filter,
      CompositeFilter.composeChildren_eq db hf vis (.combined [])]
    refine List.filter_congr fun r _ => ?_
    simp only [List.all_cons, List.all_nil, Bool.and_true]
    grind

/-- The rows of the has-parents query before visibility. -/
def hasParentsBase (f : CompositeFilter) : List HasParentsRow :=
  (hasParentsRows db).filter fun r =>
    sourceIds.contains r.symbolInstance.id &&
      r.containerInstance.offsetRange.contains r.symbolInstance.offsetRange &&
      decide (r.symbolType.level ≤ r.containerType.level) &&
      !(r.containerInstance.id == r.symbolInstance.id) &&
      Query.passes (f.composeHasParents db (.combined [])) r

theorem splits_hasParentsQuery (hf : f.isChainDependent = false) :
    Splits (hasParentsQuery db f sourceIds) (hasParentsBase db sourceIds f)
      [(·.symbol.layer), (·.symbolInstance.layer), (·.containerSymbol.layer),
        (·.containerInstance.layer)] where
  applied vis := by simp [hasParentsQuery, buildHasParentsQuery]
  rows vis := by
    simp only [hasParentsQuery, buildHasParentsQuery, hasParentsBase, Query.rows_guard,
      Query.rows_filterOpt, Query.rows_filter, Query.rows_pred, Query.rows_ofRows,
      Query.applied_filterOpt, Query.applied_filter, Query.applied_pred, Query.applied_ofRows,
      List.nil_append, List.cons_append, List.filter_filter,
      CompositeFilter.composeHasParents_eq db hf vis (.combined [])]
    refine List.filter_congr fun r _ => ?_
    simp only [List.all_cons, List.all_nil, Bool.and_true]
    grind

/-- The rows of the has-children query before visibility. -/
def hasChildrenBase (e : Option (HasChildrenRow → Bool)) : List HasChildrenRow :=
  (hasChildrenRows db).filter fun r =>
    sourceIds.contains r.symbolInstance.id &&
      r.symbolInstance.offsetRange.contains r.containedInstance.offsetRange &&
      decide (r.containedType.level ≤ r.symbolType.level) &&
      !(r.symbolInstance.id == r.containedInstance.id) && Query.passes e r

/-- The columns a has-children query records. -/
def hasChildrenColumns : List (HasChildrenRow → ℤ) :=
  [(·.symbol.layer), (·.symbolInstance.layer), (·.containedSymbol.layer),
    (·.containedInstance.layer)]

theorem splits_hasChildrenQuery (hf : f.isChainDependent = false) :
    Splits (hasChildrenQuery db f sourceIds)
      (hasChildrenBase db sourceIds (f.composeHasChildren db (.combined [])))
      hasChildrenColumns where
  applied vis := by
    simp [hasChildrenQuery, buildHasChildrenQuery, buildHasChildrenInner, hasChildrenColumns]
  rows vis := by
    simp only [hasChildrenQuery, buildHasChildrenQuery, buildHasChildrenInner, hasChildrenBase,
      hasChildrenColumns, Query.rows_guard, Query.rows_filterOpt, Query.rows_filter,
      Query.rows_pred, Query.rows_ofRows, Query.applied_filterOpt, Query.applied_filter,
      Query.applied_pred, Query.applied_ofRows, List.nil_append, List.cons_append,
      List.filter_filter, CompositeFilter.composeHasChildren_eq db hf vis (.combined [])]
    refine List.filter_congr fun r _ => ?_
    simp only [List.all_cons, List.all_nil, Bool.and_true]
    grind

/-- The instance of a has-children row comes from its table. -/
theorem symbolInstance_mem_of_hasChildrenRows {r : HasChildrenRow}
    (h : r ∈ hasChildrenRows db) : r.symbolInstance ∈ db.symbolInstances := by
  obtain ⟨⟨⟨a, o⟩, b⟩, hab, rfl⟩ := List.mem_map.mp h
  exact ((mem_typedInstances db).mp (mem_join.mp (mem_join.mp hab).1).1).1

/-- A visible source row is one whose id is in the candidate table. -/
theorem contains_hasChildrenCteBody {vis : VisibilitySpec} {i : SymbolInstance}
    (hi : i ∈ db.symbolInstances) (hvis : vis.admits i.layer = true) :
    (hasChildrenCteBody db sourceIds vis).contains i.id = sourceIds.contains i.id := by
  rw [Bool.eq_iff_iff, List.contains_iff_mem, List.contains_iff_mem]
  constructor
  · intro h
    obtain ⟨j, hj, hji⟩ := List.mem_map.mp h
    rw [List.mem_filter, Bool.and_eq_true, List.contains_iff_mem] at hj
    exact hji ▸ hj.2.1
  · intro h
    refine List.mem_map.mpr ⟨i, ?_, rfl⟩
    rw [List.mem_filter, Bool.and_eq_true, List.contains_iff_mem]
    exact ⟨hi, h, hvis⟩

theorem splits_cteHasChildrenQuery : Splits (cteHasChildrenQuery db sourceIds)
    (hasChildrenBase db sourceIds none) hasChildrenColumns where
  applied vis := by simp [cteHasChildrenQuery, buildHasChildrenInner, hasChildrenColumns]
  rows vis := by
    simp only [cteHasChildrenQuery, buildHasChildrenInner, hasChildrenBase, hasChildrenColumns,
      Query.rows_guard, Query.rows_filter, Query.rows_pred, Query.rows_ofRows,
      Query.applied_filter, Query.applied_pred, Query.applied_ofRows, List.nil_append,
      List.cons_append, List.filter_filter]
    refine List.filter_congr fun r hr => ?_
    simp only [List.all_cons, List.all_nil, Bool.and_true, Query.passes]
    cases hvis : vis.admits r.symbolInstance.layer with
    | false => simp
    | true =>
      rw [contains_hasChildrenCteBody db sourceIds
        (symbolInstance_mem_of_hasChildrenRows db hr) hvis]
      grind

/-! ### The loader is exact -/

/-- A partitioned load of a query is exact: its rows are those of the query under
combined visibility, its keys are distinct, and every column the query records has a
visible layer. -/
structure LoadExact (key : R → K) (eph : EphContext) (build : VisibilitySpec → Query R) :
    Prop where
  perm : (cachedLoadPartitioned key eph false build).Perm
    (build (.combined eph.visibleIds)).rows
  mem_keys : ∀ k, k ∈ (cachedLoadPartitioned key eph false build).map key ↔
    k ∈ (build (.combined eph.visibleIds)).rows.map key
  nodup_keys : ((cachedLoadPartitioned key eph false build).map key).Nodup
  visible : ∀ r ∈ cachedLoadPartitioned key eph false build,
    ∀ c ∈ (build (.combined eph.visibleIds)).applied, c r ∈ eph.visibleIds

theorem Splits.loadExact {build : VisibilitySpec → Query R} {base : List R}
    {cols : List (R → ℤ)} {eph : EphContext} {key : R → K} (hs : Splits build base cols)
    (heph : eph.SignConsistent) (hcols : cols ≠ []) (hkey : (base.map key).Nodup) :
    LoadExact key eph build where
  perm := hs.perm heph hcols hkey
  mem_keys _ := ((hs.perm heph hcols hkey).map key).mem_iff
  nodup_keys := ((hs.perm heph hcols hkey).map key).nodup_iff.mpr (hs.nodup_keys hkey _)
  visible r hr c hc := by
    rw [hs.applied] at hc
    exact hs.visible r ((hs.perm heph hcols hkey).mem_iff.mp hr) c hc

omit [DecidableEq K] in
/-- The keys of filtered rows are still distinct. -/
private theorem nodup_filter_keys {key : R → K} {rows : List R} (h : (rows.map key).Nodup)
    (p : R → Bool) : ((rows.filter p).map key).Nodup :=
  h.sublist (List.filter_sublist.map key)

/-- **Partitioned loading equals the combined query**, for each of the five query
contexts, in plain and in CTE form, under any filter tree that is not chain dependent. -/
theorem partitioned_load_exact (eph : EphContext) (heph : eph.SignConsistent)
    (f : CompositeFilter) (hf : f.isChainDependent = false) (sourceIds : List ℤ)
    (scopeIds : Option (List ℤ)) :
    LoadExact CurrentRow.key eph (currentQuery db f) ∧
      LoadExact ParentsRow.key eph (parentsQuery db f sourceIds scopeIds) ∧
      LoadExact ChildrenRow.key eph (childrenQuery db f sourceIds scopeIds) ∧
      LoadExact HasParentsRow.key eph (hasParentsQuery db f sourceIds) ∧
      LoadExact HasChildrenRow.key eph (hasChildrenQuery db f sourceIds) ∧
      LoadExact HasChildrenRow.key eph (cteHasChildrenQuery db sourceIds) := by
  refine ⟨?_, ?_, ?_, ?_, ?_, ?_⟩
  · exact (splits_currentQuery db f).loadExact heph (by simp)
      (nodup_filter_keys (nodup_currentRows db) _)
  · exact (splits_parentsQuery db sourceIds f scopeIds).loadExact heph (by simp)
      (nodup_filter_keys (nodup_parentsRows db) _)
  · exact (splits_childrenQuery db sourceIds hf scopeIds).loadExact heph (by simp)
      (nodup_filter_keys (nodup_childrenRows db) _)
  · exact (splits_hasParentsQuery db sourceIds hf).loadExact heph (by simp)
      (nodup_filter_keys (nodup_hasParentsRows db) _)
  · exact (splits_hasChildrenQuery db sourceIds hf).loadExact heph (by simp [hasChildrenColumns])
      (nodup_filter_keys (nodup_hasChildrenRows db) _)
  · exact (splits_cteHasChildrenQuery db sourceIds).loadExact heph (by simp [hasChildrenColumns])
      (nodup_filter_keys (nodup_hasChildrenRows db) _)

/-! ### A sample with a layer -/

/-- A function `a` whose instance is repeated in the ephemeral layer `-1`. -/
def layeredDatabase : Database :=
  .singleFile [.plain 1 ['a']] [.plain 1 1 0 10 (.refl true),
    ⟨-1, 1, 1, .bounded 2 4 (by decide), 1, -1⟩] [] (.refl true) (.refl true) (.refl true)

/-- The root `1` with the layer `-1` on its chain. -/
def layeredContext : EphContext where
  roots := [⟨1, 1⟩]
  chains := [[-1]]
  parallel := rfl
  lockstep := by simp

/-- Both instances of `a` are loaded, each from its own branch. -/
theorem partitioned_load_exact_layered :
    (layeredContext.SignConsistent ∧
      (cachedLoadPartitioned CurrentRow.key layeredContext false
        (currentQuery layeredDatabase (.leaf (.leafName ['a'])))).map (·.symbolInstance.id) =
          [1, -1]) ∧
    LoadExact CurrentRow.key layeredContext
      (currentQuery layeredDatabase (.leaf (.leafName ['a']))) := by
  have heph : layeredContext.SignConsistent := ⟨by decide, by decide⟩
  exact ⟨⟨heph, by decide +kernel⟩, (partitioned_load_exact layeredDatabase layeredContext heph
    (.leaf (.leafName ['a'])) (by decide) [] none).1⟩

end Askl
