import Askl.Query.CompositeLayer
import Askl.Query.SearchRanges
import Askl.Query.SearchTruncation
import Askl.Store.FilterHash

/-!
# The layers of a search

A search fills a layer of each root with one symbol, named after the query, and an instance of
it for every match in the root's project.  The layer is keyed by the arguments and the filter of
the command.

## Main definitions

* `searchStream` — what the key of the base hashes.
* `searchScan` — the populate, over the layers that it can see.
* `searchSpec` — the specification of the layers.
* `SearchHolds` — rows that are those of what a search finds.
* `ShowsMatches` — what such rows show.

## Main results

* `searchStream_inj` — **the stream determines the arguments and the filter.**
* `searchHolds_of_searchScan` — the rows of a layer are those of what its search finds.
* `SearchHolds.showsMatches` — **there are no more rows than the limit, each covers the query, and
  where the search reaches its matches they are the first ones.**
-/

namespace Askl

open Keyed Leftmost LittleEndian PrefixCode Utf8

/-! ### Keys -/

/-- What the key of the base hashes. -/
def searchStream (sel : SearchSelector) (filter : CompositeFilter) : Bytes :=
  tagBytes "search" ++ (leBytes 8 (utf8 sel.query).length ++ (utf8 sel.query ++
    (FilterLeaf.hashFlag sel.caseSensitive ++ (FilterLeaf.hashFlag sel.wholeWord ++
      (leBytes 8 sel.limit ++ filter.hashInto)))))

/-- The language bounds the length of a string, and the parts of a filter are counted. -/
structure SearchHashable (sel : SearchSelector) (filter : CompositeFilter) : Prop where
  query_lt : (utf8 sel.query).length < 2 ^ 63
  filter : filter.Hashable

/-- **The stream determines the arguments and the filter.** -/
theorem searchStream_inj {sel sel' : SearchSelector} {filter filter' : CompositeFilter}
    (hsel : SearchHashable sel filter) (hsel' : SearchHashable sel' filter')
    (h : searchStream sel filter = searchStream sel' filter') : sel = sel' ∧ filter = filter' := by
  have hpow : (2 : ℕ) ^ 63 < 256 ^ 8 := by decide
  have hflag : ∀ b b' : Bool, FilterLeaf.hashFlag b = FilterLeaf.hashFlag b' → b = b' := by decide
  obtain ⟨hlength, h⟩ := List.append_inj (List.append_cancel_left h) (by simp)
  have hlength := leBytes_inj_nat (hsel.query_lt.trans hpow) (hsel'.query_lt.trans hpow) hlength
  obtain ⟨hquery, h⟩ := List.append_inj h hlength
  obtain ⟨hcase, h⟩ := List.append_inj h rfl
  obtain ⟨hword, h⟩ := List.append_inj h rfl
  obtain ⟨hlimit, h⟩ := List.append_inj h (by simp)
  have hlimit := leBytes_inj_nat sel.limit_lt sel'.limit_lt hlimit
  have hfilter := CompositeFilter.delimits_hashInto.eq_of_eq hsel.filter hsel'.filter h
  exact ⟨SearchSelector.ext (utf8_injective hquery) (hflag _ _ hcase) (hflag _ _ hword) hlimit,
    hfilter⟩

/-- The stream of a search is not that of a location. -/
theorem not_isLocStream_search (sel : SearchSelector) (filter : CompositeFilter) :
    ¬IsLocStream (searchStream sel filter) :=
  not_isLocStream (by decide) (by decide)

/-! ### The scan -/

/-- `char::is_control`. -/
def isControl (c : Char) : Bool :=
  decide (c.toNat < 0x20) || (decide (0x7F ≤ c.toNat) && decide (c.toNat < 0xA0))

/-- `SearchSelector::sanitise_for_symbol_name`. -/
def sanitiseForSymbolName (query : Text) : Text :=
  query.map fun c => if c == ':' || isControl c then '?' else c

/-- The name of the symbol of a search. -/
def searchSymName (query : Text) : Text := "search:".toList ++ sanitiseForSymbolName query

/-- The symbol of a search in a project. -/
def searchSymbol (query : Text) (projectId : ℤ) : EphSymbolRow where
  name := searchSymName query
  path := (symbolPathAndLeaf (searchSymName query) symbolTypeContent).1
  projectId := projectId
  symbolType := symbolTypeContent
  scope := none
  leafName := (symbolPathAndLeaf (searchSymName query) symbolTypeContent).2

/-- The instance of a match. -/
def searchInstance (symbolId : ℤ) (m : SearchMatchRow) : EphInstanceRow :=
  ⟨symbolId, m.objectId, m.startByte, m.endByte, instanceTypeDefinition⟩

/-- How a populate fails.  `symbol_ids[0]` would be out of bounds without a symbol. -/
inductive ScanError where
  | search (e : SearchError)
  | insert (e : LocError)
  | indexOutOfBounds
  deriving DecidableEq, Repr

/-- The tables, and the server's opinion of paths. -/
structure ScanDatabase extends SearchDatabase where
  ltreeAccepts : Ltree → Bool

/-- What an insertion reads. -/
def ScanDatabase.inserting (db : ScanDatabase) : LocDatabase :=
  ⟨db.store, fun _ => none, db.ltreeAccepts⟩

section Scan

variable (db : ScanDatabase) (sel : SearchSelector) (filter : CompositeFilter)

/-- The populate of a root's layer: the symbol, if there is a match, and then the instances. -/
def searchScan (root : RootLayer) (visibleLayers : List ℤ) (ephBranch : Bool) :
    LayerPopulate LayerTxn ScanError := fun txn => do
  let (found, truncated) ← (searchContentMatchesOn db.toSearchDatabase (sel.inputs filter)
    root.projectId visibleLayers ephBranch).mapError .search
  if found.isEmpty then pure (truncated, txn)
  else do
    let (symbolIds, txn) ← (insertSymbolsScoped db.inserting
      [searchSymbol sel.query root.projectId] root.projectId txn).mapError .insert
    match symbolIds with
    | [] => .error .indexOutOfBounds
    | symbolId :: _ => do
      let txn ← (insertInstancesScoped db.inserting (found.map (searchInstance symbolId))
        root.projectId txn).mapError .insert
      pure (truncated, txn)

/-- `layer_spec`. -/
def searchSpec (sha256 : Bytes → Hash32) : PopulateSpec LayerTxn ScanError :=
  .shardedScan (sha256 (searchStream sel filter)) (searchScan db sel filter)

end Scan

/-! ### What the rows of a root are -/

/-- The row of a match of a query in a project. -/
def searchRow (query : Text) (projectId objectId : ℤ) (range : Int4range) : SelectedRow :=
  ⟨searchSymName query, (symbolPathAndLeaf (searchSymName query) symbolTypeContent).1, projectId,
    symbolTypeContent, (symbolPathAndLeaf (searchSymName query) symbolTypeContent).2, objectId,
    range, instanceTypeDefinition⟩

/-- A row is that of a match. -/
def RowOf (query : Text) (projectId : ℤ) (m : SearchMatchRow) (r : SelectedRow) : Prop :=
  ∃ range, Int4range.of m.startByte m.endByte = some range ∧
    r = searchRow query projectId m.objectId range

/-- The rows are those of what a search finds, and they are marked as it says. -/
def SearchHolds (db : SearchDatabase) (sel : SearchSelector) (filter : CompositeFilter)
    (projectId : ℤ) (visibleLayers : List ℤ) (ephBranch truncated : Bool)
    (rows : List SelectedRow) : Prop :=
  ∃ found, searchContentMatchesOn db (sel.inputs filter) projectId visibleLayers ephBranch =
      .ok (found, truncated) ∧
    List.Forall₂ (RowOf sel.query projectId) found rows

/-- What a search finds is in files of the project, on the layers that it sees. -/
theorem object_of_match {db : SearchDatabase} {inputs : SearchInputs} {projectId : ℤ}
    {visibleLayers : List ℤ} {ephBranch : Bool} {found : List SearchMatchRow} {truncated : Bool}
    (h : searchContentMatchesOn db inputs projectId visibleLayers ephBranch =
      .ok (found, truncated)) {m : SearchMatchRow} (hm : m ∈ found) :
    ∃ o ∈ db.store.objects, o.id = m.objectId ∧ o.row.projectId = projectId ∧
      o.row.layer ∈ visibleLayers ∧
      ∃ c ∈ db.store.contentStore, c.contentHash = o.row.contentHash := by
  obtain ⟨f, hf, hrow⟩ := mem_of_searchContentMatchesOn h hm
  obtain ⟨c, hc, ho, hhash, hscope, -⟩ := mem_searchedFiles.mp hf
  rw [Bool.and_eq_true, Bool.and_eq_true, List.contains_iff_mem, List.contains_iff_mem] at hscope
  obtain ⟨⟨hproject, hlayer⟩, -⟩ := hscope
  refine ⟨f.object, ho, ?_, ?_, hlayer, c, hc, hhash.symm⟩
  · rw [searchFileRows] at hrow
    split at hrow
    · obtain ⟨_, -, rfl⟩ := List.mem_map.mp hrow
      rfl
    · cases hrow
  · rw [searchProjectIds] at hproject
    split at hproject
    · exact List.mem_singleton.mp hproject
    · split at hproject
      · exact List.mem_singleton.mp hproject
      · cases hproject

section Scan

variable {db : ScanDatabase} {sel : SearchSelector} {filter : CompositeFilter} {root : RootLayer}
  {visibleLayers : List ℤ} {ephBranch : Bool} {txn txn' : LayerTxn} {truncated : Bool}

/-- An insertion of instances whose objects are in the project inserts all of them. -/
theorem insertInstancesScoped_eq_ok {found : List SearchMatchRow} {projectId symbolId : ℤ}
    (hne : found ≠ [])
    (hobject : ∀ m ∈ found, ∃ o ∈ db.store.objects, o.id = m.objectId ∧
      o.row.projectId = projectId)
    (h : insertInstancesScoped db.inserting (found.map (searchInstance symbolId)) projectId txn =
      .ok txn') :
    txn'.symbols = txn.symbols ∧ ∃ ranges,
      List.Forall₂ (fun (m : SearchMatchRow) range =>
        Int4range.of m.startByte m.endByte = some range) found ranges ∧
      txn'.instances = txn.instances ++
        drawnInstances txn ((found.map (searchInstance symbolId)).zip ranges) := by
  -- an object is there once
  have hown : (join (found.map (searchInstance symbolId)) db.store.objects fun r o =>
      o.id == r.objectId && o.row.projectId == projectId).map (·.1) =
        found.map (searchInstance symbolId) := by
    refine map_fst_join fun r hr => ?_
    obtain ⟨m, hm, rfl⟩ := List.mem_map.mp hr
    obtain ⟨o, ho, hid, hproject⟩ := hobject m hm
    refine ⟨o, ?_⟩
    have hkey := filter_key_eq db.objects_nodup ho
    rw [hid] at hkey
    have hswap : ∀ o' : ObjectRow, (o'.id == m.objectId && o'.row.projectId == projectId) =
        (o'.row.projectId == projectId && o'.id == m.objectId) := fun _ => Bool.and_comm _ _
    simp only [searchInstance, hswap, ← List.filter_filter, hkey]
    rw [List.filter_singleton, hproject, beq_self_eq_true, cond_true]
  rw [insertInstancesScoped, if_neg (by simpa using hne)] at h
  obtain ⟨-, -, h⟩ := Fallible.bind_eq_ok.mp h
  obtain ⟨-, -, h⟩ := Fallible.bind_eq_ok.mp h
  obtain ⟨ranges, hranges, h⟩ := Fallible.bind_eq_ok.mp h
  obtain rfl := Fallible.pure_eq_ok.mp h
  change ((join (found.map (searchInstance symbolId)) db.store.objects fun r o =>
    o.id == r.objectId && o.row.projectId == projectId).map (·.1)).mapM _ = _ at hranges
  rw [hown, List.mapM_map] at hranges
  refine ⟨rfl, ranges, (Fallible.mapM_eq_ok.mp hranges).imp fun m range hrange => ?_, ?_⟩
  · change offsetRange m.startByte m.endByte = .ok range at hrange
    rw [offsetRange] at hrange
    split at hrange
    · cases hrange
    · next hof =>
      rw [hof, Except.ok.inj hrange]
  · change _ ++ drawnInstances txn (((join (found.map (searchInstance symbolId)) db.store.objects
      fun r o => o.id == r.objectId && o.row.projectId == projectId).map (·.1)).zip ranges) = _
    rw [hown]

/-- The symbol that is inserted. -/
theorem insertSymbolsScoped_eq_ok {query : Text} {projectId : ℤ} {ids : List ℤ}
    (h : insertSymbolsScoped db.inserting [searchSymbol query projectId] projectId txn =
      .ok (ids, txn')) :
    ∃ y : NewSymbol, ids = [y.id] ∧ txn'.symbols = txn.symbols ++ [y] ∧
      txn'.instances = txn.instances ∧ ∀ i, selectedRow y i =
        { searchRow query projectId i.objectId i.offsetRange with
          instanceType := i.instanceType } := by
  have hown : [searchSymbol query projectId].filter (·.projectId == projectId) =
      [searchSymbol query projectId] := by
    rw [List.filter_singleton, searchSymbol, beq_self_eq_true, cond_true]
  rw [insertSymbolsScoped, if_neg (by simp)] at h
  simp only [hown] at h
  split at h
  · obtain ⟨rfl, rfl⟩ := Prod.mk.inj (Except.ok.inj h)
    exact ⟨_, rfl, rfl, rfl, fun _ => rfl⟩
  · cases h

/-- The rows of the instances of a symbol. -/
theorem joinedRows_of_scan {found : List SearchMatchRow} {ranges : List Int4range}
    {query : Text} {projectId : ℤ} {y : NewSymbol}
    (hrow : ∀ i, selectedRow y i =
      { searchRow query projectId i.objectId i.offsetRange with instanceType := i.instanceType })
    (hranges : List.Forall₂ (fun (m : SearchMatchRow) range =>
      Int4range.of m.startByte m.endByte = some range) found ranges) :
    List.Forall₂ (RowOf query projectId) found
      (joinedRows [y] (drawnInstances txn ((found.map (searchInstance y.id)).zip ranges))) := by
  have hmap : drawnInstances txn ((found.map (searchInstance y.id)).zip ranges) =
      (found.zip ranges).zipIdx.map fun q => ⟨txn.nextInstanceId - q.2, y.id, q.1.1.objectId,
        q.1.2, instanceTypeDefinition, txn.layerId⟩ := by
    rw [drawnInstances, List.zip_map_left, List.zipIdx_map, List.map_map]
    rfl
  have hrows : joinedRows [y] (drawnInstances txn ((found.map (searchInstance y.id)).zip ranges)) =
      (found.zip ranges).map fun q => searchRow query projectId q.1.objectId q.2 := by
    rw [joinedRows_eq (fun i hi => ?_) fun z hz i _ => List.mem_singleton.mp hz ▸ hrow i, hmap,
      List.map_map, ← List.zipIdx_map_fst 0 (found.zip ranges), List.map_map]
    · rw [List.zipIdx_map_fst]
      rfl
    · rw [hmap] at hi
      obtain ⟨q, -, rfl⟩ := List.mem_map.mp hi
      exact ⟨y, List.mem_singleton_self y, rfl⟩
  rw [hrows]
  clear hrows hmap
  induction hranges with
  | nil => exact .nil
  | cons hrange _ ih => exact .cons ⟨_, hrange, rfl⟩ ih

theorem mapError_eq_ok {α ε ε' : Type} {x : Except ε α} {f : ε → ε'} {a : α}
    (h : x.mapError f = .ok a) : x = .ok a := by
  cases x with
  | error e => cases h
  | ok b => exact congrArg Except.ok (Except.ok.inj h)

/-- **The rows of a layer are those of what its search finds**, in order. -/
theorem searchHolds_of_searchScan (hsymbols : txn.symbols = []) (hinstances : txn.instances = [])
    (h : searchScan db sel filter root visibleLayers ephBranch txn = .ok (truncated, txn')) :
    SearchHolds db.toSearchDatabase sel filter root.projectId visibleLayers ephBranch truncated
      (joinedRows txn'.symbols txn'.instances) := by
  obtain ⟨⟨found, truncated₀⟩, hsearch, h⟩ := Fallible.bind_eq_ok.mp h
  have hsearch := mapError_eq_ok hsearch
  dsimp only at h
  split at h
  · -- no match, no symbol
    next hempty =>
    obtain ⟨rfl, rfl⟩ := Prod.mk.inj (Fallible.pure_eq_ok.mp h)
    obtain rfl := List.isEmpty_iff.mp hempty
    refine ⟨[], hsearch, ?_⟩
    rw [hsymbols, hinstances]
    exact .nil
  · next hne =>
    obtain ⟨⟨ids, txn₁⟩, hinsert, h⟩ := Fallible.bind_eq_ok.mp h
    have hinsert := mapError_eq_ok hinsert
    obtain ⟨y, rfl, hsymbols₁, hinstances₁, hrow⟩ := insertSymbolsScoped_eq_ok hinsert
    obtain ⟨txn₂, hinsert, h⟩ := Fallible.bind_eq_ok.mp h
    have hinsert := mapError_eq_ok hinsert
    obtain ⟨rfl, rfl⟩ := Prod.mk.inj (Fallible.pure_eq_ok.mp h)
    have hobject : ∀ m ∈ found, ∃ o ∈ db.store.objects, o.id = m.objectId ∧
        o.row.projectId = root.projectId := by
      intro m hm
      obtain ⟨o, ho, hid, hproject, -⟩ := object_of_match hsearch hm
      exact ⟨o, ho, hid, hproject⟩
    obtain ⟨hsymbols₂, ranges, hranges, hinstances₂⟩ :=
      insertInstancesScoped_eq_ok (mt List.isEmpty_iff.mpr hne) hobject hinsert
    rw [hsymbols, List.nil_append] at hsymbols₁
    rw [hinstances₁, hinstances, List.nil_append] at hinstances₂
    rw [hsymbols₂, hsymbols₁, hinstances₂]
    exact ⟨found, hsearch, joinedRows_of_scan hrow hranges⟩

end Scan

/-! ### What the rows show -/

section Shows

variable (db : SearchDatabase) (sel : SearchSelector) (filter : CompositeFilter) (projectId : ℤ)
  (visibleLayers : List ℤ) (ephBranch : Bool)

/-- A row of the project's symbol whose range covers the query in a file of the project. -/
structure ShowsMatch (r : SelectedRow) : Prop where
  name : r.name = searchSymName sel.query
  project : r.projectId = projectId
  covers : ∃ o ∈ db.store.objects, o.id = r.objectId ∧ o.row.projectId = projectId ∧
    o.row.layer ∈ visibleLayers ∧ ∃ c ∈ db.store.contentStore,
      c.contentHash = o.row.contentHash ∧ ∃ m : SearchMatchRow,
        RangeRight db.locale (sel.inputs filter) c.content m ∧
          Int4range.of m.startByte m.endByte = some r.offsetRange

/-- There are no more rows than the limit, and no two have one range, so that none of their
insertions meets a conflict.  Each covers the query, unless lower-casing changes lengths.  If the
search reaches its matches, the rows are the first of them. -/
structure ShowsMatches (truncated : Bool) (rows : List SelectedRow) : Prop where
  bounded : rows.length ≤ sel.limit
  distinct : (rows.map fun r => (r.objectId, r.offsetRange)).Nodup
  covers : (sel.caseSensitive = true ∨
      ∀ c ∈ db.store.contentStore, KeepsLengths db.locale c.content) →
    ∀ r ∈ rows, ShowsMatch db sel filter projectId visibleLayers r
  first : SearchReaches db (sel.inputs filter) projectId visibleLayers ephBranch →
    List.Forall₂ (RowOf sel.query projectId)
      (((expectedMatches db (sel.inputs filter) projectId visibleLayers ephBranch).take
        sel.limit).map (SearchMatch.row db (sel.inputs filter))) rows ∧
    truncated = decide (sel.limit <
      (expectedMatches db (sel.inputs filter) projectId visibleLayers ephBranch).length)

variable {db sel filter projectId visibleLayers ephBranch} {truncated : Bool}
  {rows : List SelectedRow}

theorem needle_inputs_ne_nil : needle db (sel.inputs filter) ≠ [] := by
  rw [← List.length_pos_iff, length_needle]
  exact Nat.lt_of_lt_of_le (by decide) sel.three_le

theorem length_le_of_search {found : List SearchMatchRow}
    (h : searchContentMatchesOn db (sel.inputs filter) projectId visibleLayers ephBranch =
      .ok (found, truncated)) : found.length ≤ sel.limit := by
  rw [searchContentMatchesOn] at h
  split at h
  · cases h
  · split at h
    · cases h
    · obtain ⟨rfl, -⟩ := Prod.mk.inj (Except.ok.inj h)
      exact List.length_take_le _ _

/-- What a search finds is in order. -/
theorem pairwise_of_search {found : List SearchMatchRow}
    (h : searchContentMatchesOn db (sel.inputs filter) projectId visibleLayers ephBranch =
      .ok (found, truncated)) : found.Pairwise fun m m' => m.key < m'.key := by
  have hw : needle db (sel.inputs filter) ≠ [] := needle_inputs_ne_nil
  have hreached : ((reachedMatches db (sel.inputs filter) projectId visibleLayers ephBranch).map
      (SearchMatch.row db (sel.inputs filter))).Pairwise fun m m' => m.key < m'.key := by
    refine List.pairwise_map.mpr (reachedMatches_pairwise.imp_of_mem fun hm hm' hlt => ?_)
    obtain ⟨hf, -, -⟩ := mem_reachedMatches_iff.mp hm
    obtain ⟨hf', hpos', -⟩ := mem_reachedMatches_iff.mp hm'
    exact row_key_lt hw hf hf' (List.mem_of_mem_filter hpos') hlt
  rw [searchContentMatchesOn] at h
  split at h
  · cases h
  · split at h
    · cases h
    · rw [insertionSort_rows hw] at h
      obtain ⟨rfl, -⟩ := Prod.mk.inj (Except.ok.inj h)
      exact hreached.sublist ((List.take_sublist _ _).trans (List.take_sublist _ _))

theorem startByte_lt_of_search {found : List SearchMatchRow}
    (h : searchContentMatchesOn db (sel.inputs filter) projectId visibleLayers ephBranch =
      .ok (found, truncated)) {m : SearchMatchRow} (hm : m ∈ found) : m.startByte < m.endByte := by
  have hw : needle db (sel.inputs filter) ≠ [] := needle_inputs_ne_nil
  obtain ⟨f, -, hrow⟩ := mem_of_searchContentMatchesOn h hm
  obtain ⟨-, p, hp, -, rfl⟩ := (mem_searchFileRows hw).mp hrow
  have hlen := add_length_le hw ((leftmost_sublist _ _ _).subset (List.mem_of_mem_take hp))
  have hpos := List.length_pos_of_ne_nil hw
  exact octetLength_take_lt (by omega) (by omega)

/-- The rows have the objects and the ranges of what is found. -/
theorem map_range_of_rowOf {query : Text} {found : List SearchMatchRow}
    (h : List.Forall₂ (RowOf query projectId) found rows) :
    rows.map (fun r => (r.objectId, some r.offsetRange)) =
      found.map fun m => (m.objectId, Int4range.of m.startByte m.endByte) := by
  induction h with
  | nil => rfl
  | cons hrow _ ih =>
    obtain ⟨range, hrange, rfl⟩ := hrow
    rw [List.map_cons, List.map_cons, ih, hrange]
    rfl

/-- No two rows have one range. -/
theorem nodup_ranges_of_search {found : List SearchMatchRow}
    (hsearch : searchContentMatchesOn db (sel.inputs filter) projectId visibleLayers ephBranch =
      .ok (found, truncated))
    (hrows : List.Forall₂ (RowOf sel.query projectId) found rows) :
    (rows.map fun r => (r.objectId, r.offsetRange)).Nodup := by
  have hfound : (found.map fun m => (m.objectId, Int4range.of m.startByte m.endByte)).Nodup := by
    refine List.pairwise_map.mpr ((pairwise_of_search hsearch).imp_of_mem
      fun {m m'} hm hm' hlt heq => hlt.ne ?_)
    have hstart : (m.startByte : ℤ) < m.endByte := by
      exact_mod_cast startByte_lt_of_search hsearch hm
    have hstart' : (m'.startByte : ℤ) < m'.endByte := by
      exact_mod_cast startByte_lt_of_search hsearch hm'
    obtain ⟨hobject, hrange⟩ := Prod.mk.inj heq
    rw [Int4range.of, Int4range.of, dif_pos hstart, dif_pos hstart'] at hrange
    obtain ⟨hbyte, -⟩ := Int4range.bounded.inj (Option.some.inj hrange)
    rw [SearchMatchRow.key, SearchMatchRow.key, hobject, Nat.cast_inj.mp hbyte]
  rw [← map_range_of_rowOf hrows] at hfound
  refine List.Nodup.of_map (Prod.map id some) ?_
  rwa [List.map_map]

/-- The rows are of the symbol of the search in the project. -/
theorem SearchHolds.symbol
    (h : SearchHolds db sel filter projectId visibleLayers ephBranch truncated rows)
    {r : SelectedRow} (hr : r ∈ rows) :
    r.name = searchSymName sel.query ∧ r.projectId = projectId := by
  obtain ⟨found, -, hrows⟩ := h
  obtain ⟨m, -, range, -, rfl⟩ := Fallible.exists_of_forall₂ hrows hr
  exact ⟨rfl, rfl⟩

/-- **What the rows show.** -/
theorem SearchHolds.showsMatches
    (h : SearchHolds db sel filter projectId visibleLayers ephBranch truncated rows) :
    ShowsMatches db sel filter projectId visibleLayers ephBranch truncated rows := by
  obtain ⟨found, hsearch, hrows⟩ := h
  refine ⟨hrows.length_eq ▸ length_le_of_search hsearch, nodup_ranges_of_search hsearch hrows,
    fun hlengths r hr => ?_, fun hreaches => ?_⟩
  · obtain ⟨m, hm, range, hrange, rfl⟩ := Fallible.exists_of_forall₂ hrows hr
    obtain ⟨o, ho, hid, hproject, hlayer, c, hc, hhash⟩ := object_of_match hsearch hm
    have hright : RangeRight db.locale (sel.inputs filter) c.content m :=
      rangesRight_of_length (hlengths.imp_right fun hkeeps => hkeeps c hc) db rfl projectId
        visibleLayers ephBranch found truncated hsearch m hm o ho hid c hc hhash rfl
    exact ⟨rfl, rfl, o, ho, hid, hproject, hlayer, c, hc, hhash, m, hright, hrange⟩
  · have hexpected := (searchContentMatchesOn_eq_expected_iff needle_inputs_ne_nil).mpr hreaches
    obtain ⟨rfl, rfl⟩ := Prod.mk.inj (Except.ok.inj (hsearch.symm.trans hexpected))
    exact ⟨hrows, rfl⟩

end Shows

end Askl
