import Askl.Index.Selection
import Askl.Library.DistinctOn

/-!
# Edges between selected instances

The references that join two of the given instances, one for each reference and each
instance it starts from.  Where several instances of its target are given, the one with the
least id is taken.  The query is partitioned: each branch picks its own targets, and the
merged rows are picked from again.

## Main definitions

* `ImplicitEdge` — a row of the query.
* `edgeRows` — the joined rows of a branch, before `DISTINCT ON`.
* `findEdgesBetween` — the partitioned query.
* `findEdgesSingle` — the query under combined visibility.

## Main results

* `mem_edgeRows_combined` — the rows of the two branches are those of the single query.
* `findEdgesBetween_eq` — **the partitioned query is the single query.**
  There is one edge for each instance and reference, and its target is the least.
-/

namespace Askl

open Keyed DistinctOn

/-- `ImplicitEdge`. -/
structure ImplicitEdge where
  refId : ℤ
  toSymbol : ℤ
  fromObject : ℤ
  fromOffsetRange : Int4range
  toInstanceId : ℤ
  fromInstanceId : ℤ
  srLayer : ℤ
  fromLayer : ℤ
  toLayer : ℤ
  deriving DecidableEq, Repr

namespace ImplicitEdge

/-- The identity of a row in the branch merge. -/
def rowKey (e : ImplicitEdge) : ℤ × ℤ × ℤ := (e.refId, e.fromInstanceId, e.toInstanceId)

/-- What `DISTINCT ON` keeps one row of: an instance and a reference. -/
def origin (e : ImplicitEdge) : ℤ ×ₗ ℤ := toLex (e.fromInstanceId, e.refId)

/-- A reference between two instances. -/
def of (source : SymbolInstance) (sr : SymbolRef) (target : SymbolInstance) :
    ImplicitEdge where
  refId := sr.id
  toSymbol := sr.toSymbol
  fromObject := sr.fromObject
  fromOffsetRange := sr.fromOffsetRange
  toInstanceId := target.id
  fromInstanceId := source.id
  srLayer := sr.layer
  fromLayer := source.layer
  toLayer := target.layer

end ImplicitEdge

/-! ### The query -/

variable (db : Database)

/-- `build_find_edges_cte_body`: the candidates for both ends of an edge. -/
def edgeCandidates (ids : List ℤ) (vis : VisibilitySpec) : List SymbolInstance :=
  db.symbolInstances.filter fun i => ids.contains i.id && vis.admits i.layer

/-- The guard of the ephemeral branch: not all three rows are persistent. -/
def edgeGuard (vis : VisibilitySpec) (e : ImplicitEdge) : Bool := match vis with
  | .ephTouching _ =>
    !(decide (0 < e.srLayer) && decide (0 < e.fromLayer) && decide (0 < e.toLayer))
  | _ => true

/-- The rows of `CteFindEdgesBetween` before `DISTINCT ON`. -/
def edgeRows (ids : List ℤ) (vis : VisibilitySpec) : List ImplicitEdge :=
  ((((join (join (edgeCandidates db ids vis) db.symbolRefs fun source sr =>
        sr.fromObject == source.objectId && source.offsetRange.contains sr.fromOffsetRange)
      (edgeCandidates db ids vis) fun fr target => target.symbol == fr.2.toSymbol).filter
      fun row => !(row.1.1.id == row.2.id)).map fun row => .of row.1.1 row.1.2 row.2).filter
      fun e => vis.admits e.srLayer).filter (edgeGuard vis)

/-- `CteFindEdgesBetween`: `DISTINCT ON (from_inst.id, sr.id)`, in the order of the
instance, the reference and the target. -/
def cteFindEdgesBetween (ids : List ℤ) (vis : VisibilitySpec) : Query ImplicitEdge :=
  .ofRows (distinctOn ImplicitEdge.origin ImplicitEdge.toInstanceId (edgeRows db ids vis))

/-- `find_edges_between`. -/
def findEdgesBetween (instanceIds : List ℤ) (eph : EphContext) :
    Except IndexError (List ImplicitEdge) :=
  if instanceIds.isEmpty then .ok []
  else do
    let ids := canonicalIds instanceIds
    let results := cachedLoadPartitioned ImplicitEdge.rowKey eph false
      (cteFindEdgesBetween db ids)
    -- `sort_unstable_by_key` and `dedup_by_key`, once more over the merged branches
    let results := distinctOn ImplicitEdge.origin ImplicitEdge.toInstanceId results
    checkLayers (results.flatMap fun e => [e.srLayer, e.fromLayer, e.toLayer]) eph
    return results

/-- One `DISTINCT ON` over the whole visible layer set. -/
def findEdgesSingle (instanceIds : List ℤ) (eph : EphContext) : List ImplicitEdge :=
  distinctOn ImplicitEdge.origin ImplicitEdge.toInstanceId
    (edgeRows db instanceIds (.combined eph.visibleIds))

/-! ### The rows -/

variable {db} {ids : List ℤ} {vis : VisibilitySpec} {e : ImplicitEdge}

/-- Two given instances joined by a reference, in visible layers. -/
structure IsEdge (db : Database) (ids : List ℤ) (visible : List ℤ) (source : SymbolInstance)
    (sr : SymbolRef) (target : SymbolInstance) : Prop where
  source_mem : source ∈ db.symbolInstances
  ref_mem : sr ∈ db.symbolRefs
  target_mem : target ∈ db.symbolInstances
  source_id : source.id ∈ ids
  target_id : target.id ∈ ids
  object : sr.fromObject = source.objectId
  range : source.offsetRange.contains sr.fromOffsetRange = true
  symbol : target.symbol = sr.toSymbol
  ne : source.id ≠ target.id
  source_layer : source.layer ∈ visible
  ref_layer : sr.layer ∈ visible
  target_layer : target.layer ∈ visible

theorem mem_edgeRows : e ∈ edgeRows db ids vis ↔ ∃ source sr target,
    IsEdge db ids vis.visible source sr target ∧ edgeGuard vis e = true ∧
      ImplicitEdge.of source sr target = e := by
  simp only [edgeRows, edgeCandidates, List.mem_filter, List.mem_map, mem_join,
    Bool.and_eq_true, List.contains_iff_mem, VisibilitySpec.admits_iff, beq_iff_eq,
    Bool.not_eq_true', beq_eq_false_iff_ne, Prod.exists]
  constructor
  · rintro ⟨⟨⟨source, sr, target, ⟨⟨⟨⟨hs, hsid, hsl⟩, hr, hobj, hrange⟩, ⟨ht, htid, htl⟩, hsym⟩,
      hne⟩, rfl⟩, hrl⟩, hguard⟩
    exact ⟨source, sr, target,
      ⟨hs, hr, ht, hsid, htid, hobj, hrange, hsym, hne, hsl, hrl, htl⟩, hguard, rfl⟩
  · rintro ⟨source, sr, target, h, hguard, rfl⟩
    exact ⟨⟨⟨source, sr, target, ⟨⟨⟨⟨h.source_mem, h.source_id, h.source_layer⟩, h.ref_mem,
      h.object, h.range⟩, ⟨h.target_mem, h.target_id, h.target_layer⟩, h.symbol⟩, h.ne⟩, rfl⟩,
      h.ref_layer⟩, hguard⟩

/-- A row is determined by the ids of its three rows. -/
theorem edge_eq_of_ids {e e' : ImplicitEdge} {vis' : VisibilitySpec} {ids' : List ℤ}
    (he : e ∈ edgeRows db ids vis) (he' : e' ∈ edgeRows db ids' vis')
    (horigin : e.origin = e'.origin) (htarget : e.toInstanceId = e'.toInstanceId) : e = e' := by
  obtain ⟨source, sr, target, h, -, rfl⟩ := mem_edgeRows.mp he
  obtain ⟨source', sr', target', h', -, rfl⟩ := mem_edgeRows.mp he'
  obtain ⟨hsource, hsr⟩ := Prod.mk.inj (toLex.injective horigin)
  have hss : source = source' := db.instance_eq_of_id h.source_mem h'.source_mem hsource
  have hrr : sr = sr' := eq_of_key db.symbolRefs_nodup h.ref_mem h'.ref_mem hsr
  have htt : target = target' := db.instance_eq_of_id h.target_mem h'.target_mem htarget
  rw [hss, hrr, htt]

theorem determined_edgeRows (db : Database) (ids : List ℤ) (vis : VisibilitySpec) :
    Determined ImplicitEdge.origin ImplicitEdge.toInstanceId (edgeRows db ids vis) :=
  fun _ he _ he' horigin htarget => edge_eq_of_ids he he' horigin htarget

/-- The order of the given ids and their repetitions do not matter. -/
theorem mem_edgeRows_canonicalIds :
    e ∈ edgeRows db (canonicalIds ids) vis ↔ e ∈ edgeRows db ids vis := by
  have hcandidates : edgeCandidates db (canonicalIds ids) vis = edgeCandidates db ids vis := by
    refine List.filter_congr fun i _ => ?_
    rw [Bool.eq_iff_iff]
    simp
  rw [edgeRows, edgeRows, hcandidates]

/-- **The rows of the combined query are those of the two branches.** -/
theorem mem_edgeRows_combined {eph : EphContext} (heph : eph.SignConsistent) :
    e ∈ edgeRows db ids (.combined eph.visibleIds) ↔
      e ∈ edgeRows db ids (.rootOnly eph.rootIds) ∨
        e ∈ edgeRows db ids (.ephTouching eph.visibleIds) := by
  have hroot : ∀ {l : ℤ}, l ∈ eph.rootIds → l ∈ eph.visibleIds := fun h =>
    EphContext.mem_visibleIds.mpr (Or.inl h)
  simp only [mem_edgeRows, VisibilitySpec.visible, edgeGuard, true_and]
  constructor
  · rintro ⟨source, sr, target, h, rfl⟩
    by_cases hpos : 0 < sr.layer ∧ 0 < source.layer ∧ 0 < target.layer
    · refine Or.inl ⟨source, sr, target, { h with
        source_layer := ?_, ref_layer := ?_, target_layer := ?_ }, rfl⟩
      · exact (heph.mem_rootIds_iff h.source_layer).mpr hpos.2.1
      · exact (heph.mem_rootIds_iff h.ref_layer).mpr hpos.1
      · exact (heph.mem_rootIds_iff h.target_layer).mpr hpos.2.2
    · refine Or.inr ⟨source, sr, target, h, ?_, rfl⟩
      rw [Bool.not_eq_true', Bool.eq_false_iff]
      intro hall
      simp only [Bool.and_eq_true, decide_eq_true_eq] at hall
      exact hpos ⟨hall.1.1, hall.1.2, hall.2⟩
  · rintro (⟨source, sr, target, h, rfl⟩ | ⟨source, sr, target, h, -, rfl⟩)
    · exact ⟨source, sr, target, { h with
        source_layer := hroot h.source_layer, ref_layer := hroot h.ref_layer,
        target_layer := hroot h.target_layer }, rfl⟩
    · exact ⟨source, sr, target, h, rfl⟩

/-! ### The partitioned query is the single query -/

/-- What a load holds, before the last sort: the rows that each branch keeps. -/
theorem mem_load_edges {eph : EphContext} (hchain : eph.hasChain = true) :
    e ∈ cachedLoadPartitioned ImplicitEdge.rowKey eph false (cteFindEdgesBetween db ids) ↔
      e ∈ (cteFindEdgesBetween db ids (.rootOnly eph.rootIds)).rows ∨
        e ∈ (cteFindEdgesBetween db ids (.ephTouching eph.visibleIds)).rows := by
  have hinj : ∀ a ∈ (cteFindEdgesBetween db ids (.rootOnly eph.rootIds)).rows ++
      (cteFindEdgesBetween db ids (.ephTouching eph.visibleIds)).rows,
      ∀ b ∈ (cteFindEdgesBetween db ids (.rootOnly eph.rootIds)).rows ++
        (cteFindEdgesBetween db ids (.ephTouching eph.visibleIds)).rows,
      a.rowKey = b.rowKey → a = b := by
    have hrows : ∀ a ∈ (cteFindEdgesBetween db ids (.rootOnly eph.rootIds)).rows ++
        (cteFindEdgesBetween db ids (.ephTouching eph.visibleIds)).rows,
        ∃ vis, a ∈ edgeRows db ids vis := by
      intro a ha
      rcases List.mem_append.mp ha with ha | ha
      · exact ⟨_, distinctOn_subset ha⟩
      · exact ⟨_, distinctOn_subset ha⟩
    intro a ha b hb hkey
    obtain ⟨vis, ha⟩ := hrows a ha
    obtain ⟨vis', hb⟩ := hrows b hb
    simp only [ImplicitEdge.rowKey, Prod.mk.injEq] at hkey
    exact edge_eq_of_ids ha hb
      (congrArg toLex (Prod.ext hkey.2.1 hkey.1)) hkey.2.2
  unfold cachedLoadPartitioned
  rw [if_neg (by simp), if_neg (by simp [hchain]), mem_dedupByKey hinj (by simp),
    List.mem_append]

/-- Edges start, run and end in visible layers. -/
theorem visible_of_findEdgesSingle {instanceIds : List ℤ} {eph : EphContext} {l : ℤ}
    (hl : l ∈ (findEdgesSingle db instanceIds eph).flatMap
      fun e => [e.srLayer, e.fromLayer, e.toLayer]) : l ∈ eph.visibleIds := by
  obtain ⟨e, he, hl⟩ := List.mem_flatMap.mp hl
  obtain ⟨source, sr, target, h, -, rfl⟩ := mem_edgeRows.mp (distinctOn_subset he)
  simp only [ImplicitEdge.of, List.mem_cons, List.not_mem_nil, or_false] at hl
  rcases hl with rfl | rfl | rfl
  · exact h.ref_layer
  · exact h.source_layer
  · exact h.target_layer

/-- The rows of the single query, picked from the branches. -/
theorem distinctOn_load_eq {eph : EphContext} (heph : eph.SignConsistent)
    (instanceIds : List ℤ) :
    distinctOn ImplicitEdge.origin ImplicitEdge.toInstanceId
      (cachedLoadPartitioned ImplicitEdge.rowKey eph false
        (cteFindEdgesBetween db (canonicalIds instanceIds))) =
      findEdgesSingle db instanceIds eph := by
  have hids : findEdgesSingle db instanceIds eph = findEdgesSingle db (canonicalIds instanceIds)
      eph := distinctOn_congr (determined_edgeRows _ _ _) fun _ => mem_edgeRows_canonicalIds.symm
  rw [hids]
  cases hchain : eph.hasChain with
  | false =>
    have hload : cachedLoadPartitioned ImplicitEdge.rowKey eph false
        (cteFindEdgesBetween db (canonicalIds instanceIds)) =
        findEdgesSingle db (canonicalIds instanceIds) eph := by
      unfold cachedLoadPartitioned
      rw [if_neg (by simp), if_pos (by simp [hchain]), findEdgesSingle,
        EphContext.visibleIds_eq_rootIds hchain]
      rfl
    rw [hload]
    exact distinctOn_parts (determined_edgeRows _ _ _) (fun _ => (or_self_iff).symm)
      fun _ => (or_self_iff).symm
  | true =>
    exact distinctOn_parts (determined_edgeRows _ _ _) (fun _ => mem_edgeRows_combined heph)
      fun _ => mem_load_edges hchain

/-- **The partitioned query is the single query**, for any list of ids and any context
whose layer ids have their signs: the same edges in the same order. -/
theorem findEdgesBetween_eq (db : Database) (instanceIds : List ℤ) (eph : EphContext)
    (heph : eph.SignConsistent) :
    findEdgesBetween db instanceIds eph = .ok (findEdgesSingle db instanceIds eph) ∧
      ((findEdgesSingle db instanceIds eph).map ImplicitEdge.origin).Nodup ∧
      ∀ e, e ∈ findEdgesSingle db instanceIds eph ↔
        e ∈ edgeRows db instanceIds (.combined eph.visibleIds) ∧
          ∀ e' ∈ edgeRows db instanceIds (.combined eph.visibleIds),
            e'.origin = e.origin → e.toInstanceId ≤ e'.toInstanceId := by
  refine ⟨?_, nodup_distinctOn _, fun e => mem_distinctOn (determined_edgeRows _ _ _)⟩
  unfold findEdgesBetween
  split
  · next hempty =>
    obtain rfl := List.isEmpty_iff.mp hempty
    have hnil : edgeRows db [] (.combined eph.visibleIds) = [] := by
      rw [List.eq_nil_iff_forall_not_mem]
      intro e he
      obtain ⟨source, sr, target, h, -, -⟩ := mem_edgeRows.mp he
      exact absurd h.source_id List.not_mem_nil
    rw [findEdgesSingle, hnil]
    rfl
  · dsimp only
    rw [distinctOn_load_eq heph, checkLayers_ok fun l hl => visible_of_findEdgesSingle hl]
    rfl

/-- A function `a` that refers to `b`, which has an instance in the ephemeral layer `-1`. -/
def retargetedDatabase : Database :=
  .singleFile [.plain 1 ['a'], .plain 2 ['b']]
    [.plain 1 1 0 10 (.refl true), .plain 2 2 20 30 (.refl true),
      ⟨-1, 2, 1, .bounded 40 50 (by decide), 1, -1⟩]
    [.plain 1 2 3 4 (.refl true)] (.refl true) (.refl true) (.refl true)

/-- The ephemeral instance is the target, though the persistent branch has its own. -/
theorem findEdgesBetween_eq_retargeted :
    (layeredContext.SignConsistent ∧
      (findEdgesSingle retargetedDatabase [2, 1, -1, 1] layeredContext).map
        (fun e => (e.fromInstanceId, e.refId, e.toInstanceId)) = [(1, 1, -1)]) ∧
    findEdgesBetween retargetedDatabase [2, 1, -1, 1] layeredContext =
      .ok (findEdgesSingle retargetedDatabase [2, 1, -1, 1] layeredContext) := by
  have heph : layeredContext.SignConsistent := ⟨by decide, by decide⟩
  exact ⟨⟨heph, by decide +kernel⟩,
    (findEdgesBetween_eq retargetedDatabase [2, 1, -1, 1] layeredContext heph).1⟩

end Askl
