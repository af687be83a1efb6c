import Askl.Library.Runs
import Askl.Query.LocCache
import Askl.Query.SearchLayers

/-!
# Searches and the layer cache

A search is cached for each root: its base, and an atom for each content layer of the root's
chain.  The key leaves out the other roots and the chain, and so does what is scanned: a layer
that is found holds what would be put into it.

## Main definitions

* `SearchStep` — a call for a layer, by a search or by another verb, or a collection.
* `PartHolds` — what a part of a root's layers holds.
* `SearchLayer` — what a layer with a key of a search holds.

## Main results

* `SearchStep.sound` — a step keeps layers with what their keys say.
* `searchSound_of_run` — **every layer that runs lead to holds what its key says.**
* `rows_of_call` — **a search reads the matches in a root's project**, whether the layer is found
  or made.
-/

namespace Askl

open Relation

/-! ### Steps of the cache -/

/-- A search's stream begins with the tag of the verb, as no other verb's does. -/
def IsSearchStream (stream : Bytes) : Prop := tagBytes "search" <+: stream

theorem isSearchStream_searchStream (sel : SearchSelector) (filter : CompositeFilter) :
    IsSearchStream (searchStream sel filter) :=
  List.prefix_append _ _

/-- The stream of a location is not that of a search. -/
theorem not_isSearchStream_loc (sel : LocSelector) : ¬IsSearchStream (locStream sel) := by
  rintro ⟨rest, h⟩
  exact absurd (List.cons.inj h).1 (by decide)

section Cache

variable (D : StreamDigest) (db : ScanDatabase)

/-- The key of a layer of a search. -/
def searchKey (sel : SearchSelector) (filter : CompositeFilter) (root : RootLayer)
    (part : LayerPart) : LayerKey :=
  ⟨db.store.rootHash root.id, D.sha256 (searchStream sel filter), [], part⟩

/-- One step of the cache, over unchanged tables: a call for a layer, by a search or by another
verb, or a collection. -/
inductive SearchStep : LayerTable → LayerTable → Prop where
  | search (T : LayerTable) (sel : SearchSelector) (filter : CompositeFilter) (root : RootLayer)
      (part : LayerPart) (body : LayerPopulate LayerTxn ScanError)
      (hhashable : SearchHashable sel filter) (hroot : root ∈ db.store.loadRootLayers)
      (hbody : (searchSpec db sel filter D.sha256).Populates root part body)
      (hhashes : D.Hashes (searchStream sel filter) (searchKey D db sel filter root part)) :
      SearchStep T (T.withEphLayer ((searchKey D db sel filter root part).hash D.sha256) body).2
  | other {ε : Type} (T : LayerTable) (stream : Bytes) (key : LayerKey)
      (body : LayerPopulate LayerTxn ε) (hstream : ¬IsSearchStream stream)
      (hhashes : D.Hashes stream key) :
      SearchStep T (T.withEphLayer (key.hash D.sha256) body).2
  | collect (T : LayerTable) (keep : PopulatedLayer → Bool) :
      SearchStep T { T with layers := T.layers.filter keep }

/-- What a part of a root's layers holds: the base what a search of the root's layer finds, an
atom what a search of its content layer finds, and the supplement nothing. -/
def PartHolds (sel : SearchSelector) (filter : CompositeFilter) (root : RootLayer) :
    LayerPart → Bool → List SelectedRow → Prop
  | .base => SearchHolds db.toSearchDatabase sel filter root.projectId [root.id] false
  | .supplement _ => fun truncated rows => truncated = false ∧ rows = []
  | .perLayer layerId => SearchHolds db.toSearchDatabase sel filter root.projectId [layerId] true

/-- A layer with a key of a search holds what the key says. -/
def SearchLayer (l : PopulatedLayer) : Prop :=
  ∀ sel filter, SearchHashable sel filter → ∀ root ∈ db.store.loadRootLayers, ∀ part,
    D.Hashes (searchStream sel filter) (searchKey D db sel filter root part) →
      l.hash = (searchKey D db sel filter root part).hash D.sha256 →
        PartHolds db sel filter root part l.truncated l.rows

variable {D db}

/-- A populate of a search makes what its part says. -/
theorem partHolds_of_populates {sel : SearchSelector} {filter : CompositeFilter} {root : RootLayer}
    {part : LayerPart} {body : LayerPopulate LayerTxn ScanError}
    (hbody : (searchSpec db sel filter D.sha256).Populates root part body) {txn txn' : LayerTxn}
    {truncated : Bool} (hsymbols : txn.symbols = []) (hinstances : txn.instances = [])
    (hrun : body txn = .ok (truncated, txn')) :
    PartHolds db sel filter root part truncated (joinedRows txn'.symbols txn'.instances) := by
  cases hbody with
  | base => exact searchHolds_of_searchScan hsymbols hinstances hrun
  | supplement parentId baseRef =>
    obtain ⟨rfl, rfl⟩ := Prod.mk.inj (Except.ok.inj hrun)
    refine ⟨rfl, ?_⟩
    rw [hsymbols, hinstances]
    rfl
  | perLayer hpopulate layerId baseRef =>
    obtain rfl := Option.some.inj hpopulate
    exact searchHolds_of_searchScan hsymbols hinstances hrun

/-- A populate of a search makes what its key says. -/
theorem makesGood_search (hfiled : db.store.Filed) {sel : SearchSelector}
    {filter : CompositeFilter} (hhashable : SearchHashable sel filter) {root : RootLayer}
    (hroot : root ∈ db.store.loadRootLayers) {part : LayerPart}
    {body : LayerPopulate LayerTxn ScanError}
    (hbody : (searchSpec db sel filter D.sha256).Populates root part body)
    (hhashes : D.Hashes (searchStream sel filter) (searchKey D db sel filter root part)) :
    LayerTable.MakesGood (SearchLayer D db) ((searchKey D db sel filter root part).hash D.sha256)
      body := by
  intro txn truncated txn' hsymbols hinstances hrun id sel' filter' hhashable' root' hroot' part'
    hhashes' hhash
  -- the key is that of one search, one root and one part
  obtain ⟨hpart, hrootHash, hstream⟩ := hhashes.eq_of_hash hhashes' hhash
  obtain ⟨rfl, rfl⟩ := searchStream_inj hhashable hhashable' hstream
  obtain rfl := hfiled.rootHash_inj hroot hroot' hrootHash
  obtain rfl : part = part' := hpart
  exact partHolds_of_populates hbody hsymbols hinstances hrun

/-- A populate of another verb makes no layer with a key of a search. -/
theorem makesGood_notSearch {ε : Type} {stream : Bytes} {key : LayerKey}
    {body : LayerPopulate LayerTxn ε} (hstream : ¬IsSearchStream stream)
    (hhashes : D.Hashes stream key) :
    LayerTable.MakesGood (SearchLayer D db) (key.hash D.sha256) body := by
  intro txn truncated txn' _ _ _ id sel' filter' _ root' _ part' hhashes' hhash
  obtain ⟨-, -, rfl⟩ := hhashes.eq_of_hash hhashes' hhash
  exact absurd (isSearchStream_searchStream sel' filter') hstream

/-- A step keeps layers with what their keys say. -/
theorem SearchStep.sound (hfiled : db.store.Filed) {T T' : LayerTable}
    (hT : T.Sound (SearchLayer D db)) (hstep : SearchStep D db T T') :
    T'.Sound (SearchLayer D db) := by
  cases hstep with
  | search _ sel filter root part body hhashable hroot hbody hhashes =>
    exact hT.withEphLayer (makesGood_search hfiled hhashable hroot hbody hhashes)
  | other _ stream key body hstream hhashes =>
    exact hT.withEphLayer (makesGood_notSearch hstream hhashes)
  | collect _ keep => exact hT.collect keep

/-- **Every layer that runs lead to holds what its key says.** -/
theorem searchSound_of_run (hfiled : db.store.Filed) {T T' : LayerTable} (hempty : T.layers = [])
    (hrun : ReflTransGen (SearchStep D db) T T') : T'.Sound (SearchLayer D db) := by
  have hinit : T.Sound (SearchLayer D db) := by
    constructor <;> simp [hempty]
  exact Runs.invariant_of_run (I := fun T => T.Sound (SearchLayer D db))
    (fun hT hstep => hstep.sound hfiled hT) hrun hinit

/-! ### Calls -/

section Call

variable {sel : SearchSelector} {filter : CompositeFilter} {root : RootLayer} {part : LayerPart}
  {body : LayerPopulate LayerTxn ScanError} {T : LayerTable} {o : LayerOutcome}

/-- A layer with a key of a search is read as the key says. -/
theorem partHolds_of_layer (hT : T.Sound (SearchLayer D db)) (hhashable : SearchHashable sel filter)
    (hroot : root ∈ db.store.loadRootLayers)
    (hhashes : D.Hashes (searchStream sel filter) (searchKey D db sel filter root part))
    {layerId : ℤ} {truncated : Bool}
    (h : ∃ l ∈ T.layers, l.hash = (searchKey D db sel filter root part).hash D.sha256 ∧
      l.id = layerId ∧ l.truncated = truncated) :
    PartHolds db sel filter root part truncated (T.rowsOf layerId) := by
  obtain ⟨l, hl, hhash, rfl, rfl⟩ := h
  rw [hT.rowsOf_eq hl]
  exact hT.good l hl sel filter hhashable root hroot part hhashes hhash

/-- What is read in the layer that a call returns is what the part says. -/
theorem partHolds_of_ok (hfiled : db.store.Filed) (hT : T.Sound (SearchLayer D db))
    (hhashable : SearchHashable sel filter) (hroot : root ∈ db.store.loadRootLayers)
    (hbody : (searchSpec db sel filter D.sha256).Populates root part body)
    (hhashes : D.Hashes (searchStream sel filter) (searchKey D db sel filter root part))
    (hcall : (T.withEphLayer ((searchKey D db sel filter root part).hash D.sha256) body).1 =
      .ok o) :
    PartHolds db sel filter root part o.truncated
      ((T.withEphLayer ((searchKey D db sel filter root part).hash D.sha256) body).2.rowsOf
        o.layerId) :=
  partHolds_of_layer (hT.withEphLayer (makesGood_search hfiled hhashable hroot hbody hhashes))
    hhashable hroot hhashes (LayerTable.layer_of_ok hcall)

/-- **What a search reads in the layer of a root are the matches in its project**, whether the
layer is found or made: after any run, for a call that succeeds, the rows are those of what the
search of the root's layer finds, and the mark of the layer is the one that the search gives. -/
theorem rows_of_call (hfiled : db.store.Filed) {empty : LayerTable} (hempty : empty.layers = [])
    (hrun : ReflTransGen (SearchStep D db) empty T) (hhashable : SearchHashable sel filter)
    (hroot : root ∈ db.store.loadRootLayers)
    (hhashes : D.Hashes (searchStream sel filter) (searchKey D db sel filter root .base))
    (hcall : (T.withEphLayer ((searchKey D db sel filter root .base).hash D.sha256)
      ((searchSpec db sel filter D.sha256).basePopulate root)).1 = .ok o) :
    let rows := (T.withEphLayer ((searchKey D db sel filter root .base).hash D.sha256)
      ((searchSpec db sel filter D.sha256).basePopulate root)).2.rowsOf o.layerId
    SearchHolds db.toSearchDatabase sel filter root.projectId [root.id] false o.truncated rows ∧
      ShowsMatches db.toSearchDatabase sel filter root.projectId [root.id] false o.truncated
        rows := by
  have hT := searchSound_of_run hfiled hempty hrun
  have hholds := partHolds_of_ok hfiled hT hhashable hroot .base hhashes hcall
  exact ⟨hholds, SearchHolds.showsMatches hholds⟩

end Call

end Cache

/-! ### A search that is asked twice -/

/-- The tables of two projects, the second with one file. -/
def twoProjectsScan : ScanDatabase where
  store := twoProjects.store
  locale := cLocale
  textSearch _ _ := false
  objects_nodup := by decide
  contents_nodup := by decide
  ltreeAccepts _ := true

/-- A search for the content of the file. -/
def wholeLine : SearchSelector :=
  ⟨['h', 'i', '\n'], false, false, 500, by decide, by decide, by decide⟩

/-- The streams that it hashes. -/
def wholeLineStreams : List Bytes :=
  [searchStream wholeLine (.and []),
    rootSaltedInput [5] (polynomialHash (searchStream wholeLine (.and []))),
    rootSaltedInput [6] (polynomialHash (searchStream wholeLine (.and [])))]

/-- A digest that does not collide on them. -/
def wholeLineDigest : StreamDigest where
  sha256 := polynomialHash
  hashed := {stream | stream ∈ wholeLineStreams}
  injOn := by
    have h : ∀ a ∈ wholeLineStreams, ∀ b ∈ wholeLineStreams,
        polynomialHash a = polynomialHash b → a = b := by
      decide +kernel
    exact fun a ha b hb => h a ha b hb

theorem searchHashable_wholeLine : SearchHashable wholeLine (.and []) where
  query_lt := by decide +kernel
  filter := ⟨by decide, trivial⟩

theorem hashes_wholeLine {root : RootLayer} (h : root ∈ bothRoots.roots) :
    wholeLineDigest.Hashes (searchStream wholeLine (.and []))
      (searchKey wholeLineDigest twoProjectsScan wholeLine (.and []) root .base) := by
  have hmem : rootSaltedInput (twoProjectsScan.store.rootHash root.id)
      (polynomialHash (searchStream wholeLine (.and []))) ∈ wholeLineStreams := by
    revert root
    decide +kernel
  exact ⟨rfl, List.mem_cons_self, hmem, hmem, trivial⟩

/-- The cache after the search. -/
def searchedTable : LayerTable :=
  (coldTable.withEphLayer
    ((searchKey wholeLineDigest twoProjectsScan wholeLine (.and []) ⟨4, 2⟩ .base).hash
      polynomialHash)
    ((searchSpec twoProjectsScan wholeLine (.and []) polynomialHash).basePopulate ⟨4, 2⟩)).2

theorem run_searchedTable :
    ReflTransGen (SearchStep wholeLineDigest twoProjectsScan) coldTable searchedTable :=
  .single (.search coldTable wholeLine (.and []) ⟨4, 2⟩ .base _ searchHashable_wholeLine
    (by decide) .base (hashes_wholeLine (by decide)))

/-- The second search finds the layer of the first, and reads the match. -/
theorem rows_of_call_wholeLine :
    let rows := (searchedTable.withEphLayer
      ((searchKey wholeLineDigest twoProjectsScan wholeLine (.and []) ⟨4, 2⟩ .base).hash
        polynomialHash)
      ((searchSpec twoProjectsScan wholeLine (.and []) polynomialHash).basePopulate
        ⟨4, 2⟩)).2.rowsOf (-1)
    SearchHolds twoProjectsScan.toSearchDatabase wholeLine (.and []) 2 [4] false false rows ∧
      ShowsMatches twoProjectsScan.toSearchDatabase wholeLine (.and []) 2 [4] false false rows := by
  have hcall : (searchedTable.withEphLayer
      ((searchKey wholeLineDigest twoProjectsScan wholeLine (.and []) ⟨4, 2⟩ .base).hash
        polynomialHash)
      ((searchSpec twoProjectsScan wholeLine (.and []) polynomialHash).basePopulate
        ⟨4, 2⟩)).1 = .ok ⟨-1, false, false⟩ := by
    decide +kernel
  have hroot : (⟨4, 2⟩ : RootLayer) ∈ twoProjectsScan.store.loadRootLayers := by decide
  have hempty : coldTable.layers = [] := rfl
  have hfiled : twoProjectsScan.store.Filed := filed_twoProjects
  -- named first: the two sides are compared only after all arguments are known
  have h := rows_of_call hfiled hempty run_searchedTable searchHashable_wholeLine hroot
    (hashes_wholeLine (by decide)) hcall
  exact h

end Askl
