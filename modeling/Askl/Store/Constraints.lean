import Askl.Library.Keyed
import Askl.Store.Upload

/-!
# The constraints of the tables

The keys that tie objects, instances and references together, and what the inserts do under
them: rows are found by their keys, an insert finds the row it conflicts with, and the
constraints hold after it.

## Main definitions

* `Store.objectKey`, `Store.instanceKey`, `Store.refKey` — the columns of the unique indexes.
* `Store.Constrained` — the constraints.
* `Store.findObject`, `Store.findContent`, `Store.findInstance`, `Store.findRef` — rows by key.
* `Store.Upserted` — what one object does to the objects by path.

## Main results

* `Store.exists_upserted` — **an object is inserted or overwrites the one at its path.**
* `Store.insertSymbolInstance_eq`, `Store.insertSymbolRef_eq` — the first row of a key stays.
* `Store.Constrained.deleteProject` and its like — deletions keep the constraints.
-/

namespace Askl

namespace Store

/-! ### Constraints -/

/-- The unique constraint of `objects`. -/
def objectKey (o : ObjectRow) : ℤ × Text := (o.row.projectId, o.row.filesystemPath)

/-- The unique index of `symbol_instances`. -/
def instanceKey (i : SymbolInstance) : ℤ × ℤ × Int4range × ℤ :=
  (i.symbol, i.objectId, i.offsetRange, i.layer)

/-- The unique index of `symbol_refs`. -/
def refKey (r : SymbolRef) : ℤ × ℤ × Int4range × ℤ :=
  (r.toSymbol, r.fromObject, r.fromOffsetRange, r.layer)

/-- The primary keys, unique indexes and foreign keys that tie the rows of the objects
together; a sequence is ahead of the ids it has given. -/
structure Constrained (s : Store) : Prop where
  objectIds : (s.objects.map (·.id)).Nodup
  objectPaths : (s.objects.map objectKey).Nodup
  objectSequence : ∀ o ∈ s.objects, o.id < s.nextObjectId
  instanceKeys : (s.symbolInstances.map instanceKey).Nodup
  instanceSymbols : ∀ i ∈ s.symbolInstances, ∃ y ∈ s.symbols, y.id = i.symbol
  instanceObjects : ∀ i ∈ s.symbolInstances, ∃ o ∈ s.objects, o.id = i.objectId
  refKeys : (s.symbolRefs.map refKey).Nodup
  refSymbols : ∀ r ∈ s.symbolRefs, ∃ y ∈ s.symbols, y.id = r.toSymbol
  refObjects : ∀ r ∈ s.symbolRefs, ∃ o ∈ s.objects, o.id = r.fromObject

/-! ### Lookups -/

/-- The object at a path of a project. -/
def findObject (s : Store) (projectId : ℤ) (path : Text) : Option ObjectRow :=
  s.objects.find? fun o => o.row.projectId == projectId && o.row.filesystemPath == path

/-- The content of a hash. -/
def findContent (s : Store) (contentHash : Text) : Option Bytes :=
  (s.contentStore.find? (·.contentHash == contentHash)).map (·.content)

/-- The instance of a symbol at a range of an object. -/
def findInstance (s : Store) (symbol objectId : ℤ) (offsetRange : Int4range) (layer : ℤ) :
    Option SymbolInstance :=
  s.symbolInstances.find? fun i => i.symbol == symbol && i.objectId == objectId &&
    i.offsetRange == offsetRange && i.layer == layer

/-- The reference to a symbol at a range of an object. -/
def findRef (s : Store) (toSymbol fromObject : ℤ) (fromOffsetRange : Int4range) (layer : ℤ) :
    Option SymbolRef :=
  s.symbolRefs.find? fun r => r.toSymbol == toSymbol && r.fromObject == fromObject &&
    r.fromOffsetRange == fromOffsetRange && r.layer == layer

variable {s : Store} {projectId : ℤ}

/-! ### Objects by path -/

/-- Two objects at one path are the same. -/
theorem Constrained.eq_of_path (hs : s.Constrained) {o o' : ObjectRow} (ho : o ∈ s.objects)
    (ho' : o' ∈ s.objects) (hproject : o.row.projectId = o'.row.projectId)
    (hpath : o.row.filesystemPath = o'.row.filesystemPath) : o = o' :=
  List.inj_on_of_nodup_map hs.objectPaths ho ho' (Prod.ext hproject hpath)

/-- Two objects of one id are the same. -/
theorem Constrained.eq_of_id (hs : s.Constrained) {o o' : ObjectRow} (ho : o ∈ s.objects)
    (ho' : o' ∈ s.objects) (hid : o.id = o'.id) : o = o' :=
  List.inj_on_of_nodup_map hs.objectIds ho ho' hid

theorem objectKey_eq (o : ObjectRow) (projectId : ℤ) (path : Text) :
    (o.row.projectId == projectId && o.row.filesystemPath == path) =
      decide (objectKey o = (projectId, path)) := by
  rw [Bool.eq_iff_iff]
  simp [objectKey]

/-- The object at a path is the one row with that path. -/
theorem Constrained.findObject_eq_some (hs : s.Constrained) {path : Text} {o : ObjectRow} :
    s.findObject projectId path = some o ↔
      o ∈ s.objects ∧ o.row.projectId = projectId ∧ o.row.filesystemPath = path := by
  unfold findObject
  simp only [objectKey_eq]
  rw [Keyed.find?_key_eq_some hs.objectPaths, objectKey, Prod.mk.injEq]

/-- Objects found at two paths have one id iff the paths are the same. -/
theorem Constrained.id_eq_iff (hs : s.Constrained) {path path' : Text} {o o' : ObjectRow}
    (ho : s.findObject projectId path = some o) (ho' : s.findObject projectId path' = some o') :
    o.id = o'.id ↔ path = path' := by
  obtain ⟨hmem, hproject, rfl⟩ := hs.findObject_eq_some.mp ho
  obtain ⟨hmem', hproject', rfl⟩ := hs.findObject_eq_some.mp ho'
  refine ⟨fun hid => by rw [hs.eq_of_id hmem hmem' hid], fun hpath => ?_⟩
  rw [hs.eq_of_path hmem hmem' (hproject.trans hproject'.symm) hpath]

/-! ### One object -/

theorem upsertObject_of_found {m : ObjectMap} {e : ObjectInsert} {old : ObjectRow}
    (h : s.findObject e.row.projectId e.row.filesystemPath = some old) :
    upsertObject (s, m) e =
      ({ s with objects := s.objects.map fun o =>
          if o.id = old.id then { o with row := e.row } else o },
        (e.localId, old.id) :: m) := by
  unfold findObject at h
  simp only [upsertObject, h]

theorem upsertObject_of_new {m : ObjectMap} {e : ObjectInsert}
    (h : s.findObject e.row.projectId e.row.filesystemPath = none) :
    upsertObject (s, m) e =
      ({ s with
          objects := s.objects ++ [⟨s.nextObjectId, e.row⟩]
          nextObjectId := s.nextObjectId + 1 },
        (e.localId, s.nextObjectId) :: m) := by
  unfold findObject at h
  simp only [upsertObject, h]

/-- Overwriting the columns of an object leaves the ids and the paths alone. -/
theorem Constrained.overwrite (hs : s.Constrained) {old : ObjectRow} {row : NewObject}
    (hold : s.findObject row.projectId row.filesystemPath = some old) :
    ({ s with objects := s.objects.map fun o =>
        if o.id = old.id then { o with row := row } else o } : Store).Constrained := by
  obtain ⟨hmem, hproject, hpath⟩ := hs.findObject_eq_some.mp hold
  set overwrite : ObjectRow → ObjectRow := fun o => if o.id = old.id then { o with row := row } else o
    with hoverwrite
  have hid : ∀ o, (overwrite o).id = o.id := by
    intro o
    rw [hoverwrite]
    dsimp only
    split <;> rfl
  have hids : (s.objects.map overwrite).map (·.id) = s.objects.map (·.id) := by
    rw [List.map_map]
    exact List.map_congr_left fun o _ => hid o
  have hpaths : (s.objects.map overwrite).map objectKey = s.objects.map objectKey := by
    rw [List.map_map]
    refine List.map_congr_left fun o ho => ?_
    by_cases hsame : o.id = old.id
    · obtain rfl := hs.eq_of_id ho hmem hsame
      simp [hoverwrite, objectKey, hproject, hpath]
    · simp [hoverwrite, hsame]
  have hobjects : ∀ id, (∃ o ∈ s.objects, o.id = id) → ∃ o ∈ s.objects.map overwrite, o.id = id :=
    fun id ⟨o, ho, hoid⟩ => ⟨overwrite o, List.mem_map_of_mem ho, (hid o).trans hoid⟩
  exact
    { hs with
      objectIds := by
        show ((s.objects.map overwrite).map (·.id)).Nodup
        rw [hids]
        exact hs.objectIds
      objectPaths := by
        show ((s.objects.map overwrite).map objectKey).Nodup
        rw [hpaths]
        exact hs.objectPaths
      objectSequence := by
        intro o ho
        obtain ⟨o', ho', rfl⟩ := List.mem_map.mp ho
        show (overwrite o').id < s.nextObjectId
        rw [hid o']
        exact hs.objectSequence o' ho'
      instanceObjects := fun i hi => hobjects i.objectId (hs.instanceObjects i hi)
      refObjects := fun r hr => hobjects r.fromObject (hs.refObjects r hr) }

/-- A new object gets an id of its own. -/
theorem Constrained.append (hs : s.Constrained) {row : NewObject}
    (hnew : s.findObject row.projectId row.filesystemPath = none) :
    ({ s with
        objects := s.objects ++ [⟨s.nextObjectId, row⟩]
        nextObjectId := s.nextObjectId + 1 } : Store).Constrained := by
  have hobjects : ∀ id, (∃ o ∈ s.objects, o.id = id) →
      ∃ o ∈ s.objects ++ [⟨s.nextObjectId, row⟩], o.id = id :=
    fun id ⟨o, ho, hoid⟩ => ⟨o, List.mem_append_left _ ho, hoid⟩
  exact
    { hs with
      objectIds := by
        show ((s.objects ++ [(⟨s.nextObjectId, row⟩ : ObjectRow)]).map (·.id)).Nodup
        rw [List.map_append, List.nodup_append]
        refine ⟨hs.objectIds, List.nodup_singleton _, ?_⟩
        intro id hid id' hid' heq
        obtain ⟨o, ho, rfl⟩ := List.mem_map.mp hid
        have hlt := hs.objectSequence o ho
        have hid' : id' = s.nextObjectId := by simpa using hid'
        have heq : o.id = id' := heq
        omega
      objectPaths := by
        show ((s.objects ++ [(⟨s.nextObjectId, row⟩ : ObjectRow)]).map _).Nodup
        rw [List.map_append, List.nodup_append]
        refine ⟨hs.objectPaths, List.nodup_singleton _, ?_⟩
        rintro key hkey key' hkey' rfl
        obtain ⟨o, ho, hokey⟩ := List.mem_map.mp hkey
        rw [List.map_singleton, List.mem_singleton, ← hokey] at hkey'
        obtain ⟨hproject, hpath⟩ := Prod.mk.inj hkey'
        have hnot := List.find?_eq_none.mp hnew o ho
        simp [hproject, hpath] at hnot
      objectSequence := by
        intro o ho
        show o.id < s.nextObjectId + 1
        rcases List.mem_append.mp ho with ho | ho
        · have hlt := hs.objectSequence o ho
          omega
        · rw [List.mem_singleton.mp ho]
          exact Int.lt_succ s.nextObjectId
      instanceObjects := fun i hi => hobjects i.objectId (hs.instanceObjects i hi)
      refObjects := fun r hr => hobjects r.fromObject (hs.refObjects r hr) }

/-- What one object does to the objects by path: the one at its path has its columns, and keeps
its id if it was there. -/
structure Upserted (s : Store) (e : ObjectInsert) (s' : Store) (o : ObjectRow) : Prop where
  constrained : s'.Constrained
  found : s'.findObject e.row.projectId e.row.filesystemPath = some o
  row : o.row = e.row
  id_of_found : ∀ old, s.findObject e.row.projectId e.row.filesystemPath = some old → o.id = old.id
  id_of_new : s.findObject e.row.projectId e.row.filesystemPath = none → o.id = s.nextObjectId
  others : ∀ projectId path, (projectId, path) ≠ (e.row.projectId, e.row.filesystemPath) →
    s'.findObject projectId path = s.findObject projectId path
  rest : s' = { s with objects := s'.objects, nextObjectId := s'.nextObjectId }

theorem exists_upserted (hs : s.Constrained) (m : ObjectMap) (e : ObjectInsert) :
    ∃ s' o, upsertObject (s, m) e = (s', (e.localId, o.id) :: m) ∧ Upserted s e s' o := by
  cases hfind : s.findObject e.row.projectId e.row.filesystemPath with
  | some old =>
    have hs' := hs.overwrite hfind
    have hupsert := upsertObject_of_found (m := m) hfind
    obtain ⟨hmem, hproject, hpath⟩ := hs.findObject_eq_some.mp hfind
    refine ⟨_, { old with row := e.row }, hupsert, hs', ?_, rfl, ?_, ?_, ?_, rfl⟩
    · exact hs'.findObject_eq_some.mpr ⟨List.mem_map.mpr ⟨old, hmem, by simp⟩, rfl, rfl⟩
    · intro old' hold'
      rw [hfind] at hold'
      obtain rfl := Option.some.inj hold'
      rfl
    · intro hnone
      rw [hfind] at hnone
      cases hnone
    · intro projectId path hne
      refine Option.ext fun o => ?_
      rw [hs'.findObject_eq_some, hs.findObject_eq_some]
      constructor
      · rintro ⟨ho, rfl, rfl⟩
        obtain ⟨o', ho', rfl⟩ := List.mem_map.mp ho
        by_cases hsame : o'.id = old.id
        · simp [hsame] at hne
        · rw [if_neg hsame] at hne ⊢
          exact ⟨ho', rfl, rfl⟩
      · rintro ⟨ho, rfl, rfl⟩
        refine ⟨List.mem_map.mpr ⟨o, ho, if_neg fun hsame => hne ?_⟩, rfl, rfl⟩
        obtain rfl := hs.eq_of_id ho hmem hsame
        rw [hproject, hpath]
  | none =>
    have hs' := hs.append hfind
    refine ⟨_, ⟨s.nextObjectId, e.row⟩, upsertObject_of_new hfind, hs', ?_, rfl, ?_, fun _ => rfl,
      ?_, rfl⟩
    · exact hs'.findObject_eq_some.mpr ⟨List.mem_append_right _ List.mem_cons_self, rfl, rfl⟩
    · intro old hold
      rw [hfind] at hold
      cases hold
    · intro projectId path hne
      refine Option.ext fun o => ?_
      rw [hs'.findObject_eq_some, hs.findObject_eq_some]
      constructor
      · rintro ⟨ho, rfl, rfl⟩
        rcases List.mem_append.mp ho with ho | ho
        · exact ⟨ho, rfl, rfl⟩
        · rw [List.mem_singleton.mp ho] at hne
          exact absurd rfl hne
      · rintro ⟨ho, rfl, rfl⟩
        exact ⟨List.mem_append_left _ ho, rfl, rfl⟩

/-! ### Contents -/

theorem Constrained.of_eq {s' : Store} (hs : s.Constrained) (hobjects : s'.objects = s.objects)
    (hnext : s'.nextObjectId = s.nextObjectId) (hinstances : s'.symbolInstances = s.symbolInstances)
    (hrefs : s'.symbolRefs = s.symbolRefs) (hsymbols : s'.symbols = s.symbols) :
    s'.Constrained := by
  obtain ⟨h₁, h₂, h₃, h₄, h₅, h₆, h₇, h₈, h₉⟩ := hs
  constructor <;> simp only [hobjects, hnext, hinstances, hrefs, hsymbols] <;> assumption

theorem insertContent_eq (s : Store) (row : NewContentStoreRow) :
    s.insertContent row =
      { s with contentStore := Keyed.insertNew (·.contentHash) s.contentStore row } := by
  unfold insertContent Keyed.insertNew
  simp only [beq_eq_decide]
  split <;> rfl

theorem findContent_insertContent (s : Store) (row : NewContentStoreRow) (contentHash : Text) :
    (s.insertContent row).findContent contentHash = (s.findContent contentHash).or
      (if row.contentHash = contentHash then some row.content else none) := by
  rw [insertContent_eq]
  unfold findContent
  simp only [beq_eq_decide]
  rw [Keyed.find?_insertNew, Option.map_or, apply_ite (Option.map _)]
  rfl

/-! ### Instances and references -/

theorem any_symbols {symbol : ℤ} :
    s.symbols.any (·.id == symbol) = true ↔ ∃ y ∈ s.symbols, y.id = symbol := by
  simp

theorem instanceKey_eq (i : SymbolInstance) (symbol objectId : ℤ) (offsetRange : Int4range)
    (layer : ℤ) :
    (i.symbol == symbol && i.objectId == objectId && i.offsetRange == offsetRange &&
      i.layer == layer) = decide (instanceKey i = (symbol, objectId, offsetRange, layer)) := by
  rw [Bool.eq_iff_iff]
  simp [instanceKey, and_assoc]

theorem refKey_eq (r : SymbolRef) (toSymbol fromObject : ℤ) (fromOffsetRange : Int4range)
    (layer : ℤ) :
    (r.toSymbol == toSymbol && r.fromObject == fromObject && r.fromOffsetRange == fromOffsetRange &&
      r.layer == layer) = decide (refKey r = (toSymbol, fromObject, fromOffsetRange, layer)) := by
  rw [Bool.eq_iff_iff]
  simp [refKey, and_assoc]

/-- An acceptable instance is inserted, unless it is there. -/
theorem insertSymbolInstance_eq (row : NewSymbolInstance) {offsetRange : Int4range}
    (hrange : Int4range.of row.startOffset row.endOffset = some offsetRange)
    (hsymbol : s.symbols.any (·.id == row.symbol) = true) :
    ∃ next, s.insertSymbolInstance row = .ok
      { s with
        symbolInstances := Keyed.insertNew instanceKey s.symbolInstances
          ⟨s.nextInstanceId, row.symbol, row.objectId, offsetRange, row.instanceType, row.layer⟩
        nextInstanceId := next } := by
  unfold insertSymbolInstance
  simp only [hrange, instanceKey_eq, hsymbol, List.any_eq_true, decide_eq_true_eq]
  by_cases hany : ∃ i ∈ s.symbolInstances,
      instanceKey i = (row.symbol, row.objectId, offsetRange, row.layer)
  · exact ⟨s.nextInstanceId, by rw [if_pos hany, Keyed.insertNew_of_mem hany]⟩
  · refine ⟨s.nextInstanceId + 1, ?_⟩
    rw [if_neg hany, Keyed.insertNew_of_notMem hany]
    rfl

/-- An acceptable reference is inserted, unless it is there. -/
theorem insertSymbolRef_eq (row : NewSymbolRef) {fromOffsetRange : Int4range}
    (hrange : Int4range.of row.fromOffsetStart row.fromOffsetEnd = some fromOffsetRange)
    (hsymbol : s.symbols.any (·.id == row.toSymbol) = true) :
    ∃ next, s.insertSymbolRef row = .ok
      { s with
        symbolRefs := Keyed.insertNew refKey s.symbolRefs
          ⟨s.nextRefId, row.toSymbol, row.fromObject, fromOffsetRange, row.layer⟩
        nextRefId := next } := by
  unfold insertSymbolRef
  simp only [hrange, refKey_eq, hsymbol, List.any_eq_true, decide_eq_true_eq]
  by_cases hany : ∃ r ∈ s.symbolRefs,
      refKey r = (row.toSymbol, row.fromObject, fromOffsetRange, row.layer)
  · exact ⟨s.nextRefId, by rw [if_pos hany, Keyed.insertNew_of_mem hany]⟩
  · refine ⟨s.nextRefId + 1, ?_⟩
    rw [if_neg hany, Keyed.insertNew_of_notMem hany]
    rfl

/-- The instance of a key, after one more. -/
theorem findInstance_insertNew {s' : Store} {i : SymbolInstance}
    (h : s'.symbolInstances = Keyed.insertNew instanceKey s.symbolInstances i)
    (symbol objectId : ℤ) (offsetRange : Int4range) (layer : ℤ) :
    s'.findInstance symbol objectId offsetRange layer =
      (s.findInstance symbol objectId offsetRange layer).or
        (if instanceKey i = (symbol, objectId, offsetRange, layer) then some i else none) := by
  unfold findInstance
  simp only [instanceKey_eq]
  rw [h, Keyed.find?_insertNew]

/-- The reference of a key, after one more. -/
theorem findRef_insertNew {s' : Store} {r : SymbolRef}
    (h : s'.symbolRefs = Keyed.insertNew refKey s.symbolRefs r)
    (toSymbol fromObject : ℤ) (fromOffsetRange : Int4range) (layer : ℤ) :
    s'.findRef toSymbol fromObject fromOffsetRange layer =
      (s.findRef toSymbol fromObject fromOffsetRange layer).or
        (if refKey r = (toSymbol, fromObject, fromOffsetRange, layer) then some r else none) := by
  unfold findRef
  simp only [refKey_eq]
  rw [h, Keyed.find?_insertNew]

/-- The instance of a key is the one row with that key. -/
theorem Constrained.findInstance_eq_some (hs : s.Constrained) {symbol objectId layer : ℤ}
    {offsetRange : Int4range} {i : SymbolInstance} :
    s.findInstance symbol objectId offsetRange layer = some i ↔
      i ∈ s.symbolInstances ∧ instanceKey i = (symbol, objectId, offsetRange, layer) := by
  unfold findInstance
  simp only [instanceKey_eq]
  exact Keyed.find?_key_eq_some hs.instanceKeys

/-- The reference of a key is the one row with that key. -/
theorem Constrained.findRef_eq_some (hs : s.Constrained) {toSymbol fromObject layer : ℤ}
    {fromOffsetRange : Int4range} {r : SymbolRef} :
    s.findRef toSymbol fromObject fromOffsetRange layer = some r ↔
      r ∈ s.symbolRefs ∧ refKey r = (toSymbol, fromObject, fromOffsetRange, layer) := by
  unfold findRef
  simp only [refKey_eq]
  exact Keyed.find?_key_eq_some hs.refKeys

/-! ### Deletions -/

/-- Instances and references can go as long as what they refer to stays. -/
theorem Constrained.filterRows (hs : s.Constrained) (p : SymbolInstance → Bool)
    (q : SymbolRef → Bool) :
    ({ s with
        symbolInstances := s.symbolInstances.filter p
        symbolRefs := s.symbolRefs.filter q } : Store).Constrained :=
  { hs with
    instanceKeys := hs.instanceKeys.sublist (List.filter_sublist.map instanceKey)
    instanceSymbols := fun i hi => hs.instanceSymbols i (List.mem_of_mem_filter hi)
    instanceObjects := fun i hi => hs.instanceObjects i (List.mem_of_mem_filter hi)
    refKeys := hs.refKeys.sublist (List.filter_sublist.map refKey)
    refSymbols := fun r hr => hs.refSymbols r (List.mem_of_mem_filter hr)
    refObjects := fun r hr => hs.refObjects r (List.mem_of_mem_filter hr) }

/-- Instances and references of symbols that go are deleted with them. -/
theorem Constrained.keepSymbols (hs : s.Constrained) (p : NewSymbol → Bool) :
    (s.keepSymbols p).Constrained :=
  { hs.filterRows (fun i => (s.symbols.filter p).any (·.id == i.symbol))
      (fun r => (s.symbols.filter p).any (·.id == r.toSymbol)) with
    instanceSymbols := by
      intro i hi
      obtain ⟨owner, howner, hid⟩ := List.any_eq_true.mp (List.mem_filter.mp hi).2
      exact ⟨owner, howner, beq_iff_eq.mp hid⟩
    refSymbols := by
      intro r hr
      obtain ⟨owner, howner, hid⟩ := List.any_eq_true.mp (List.mem_filter.mp hr).2
      exact ⟨owner, howner, beq_iff_eq.mp hid⟩ }

/-- Instances and references in objects that go are deleted with them. -/
theorem Constrained.keepObjects (hs : s.Constrained) (p : ObjectRow → Bool) :
    (s.keepObjects p).Constrained :=
  { hs.filterRows (fun i => (s.objects.filter p).any (·.id == i.objectId))
      (fun r => (s.objects.filter p).any (·.id == r.fromObject)) with
    objectIds := hs.objectIds.sublist (List.filter_sublist.map _)
    objectPaths := hs.objectPaths.sublist (List.filter_sublist.map _)
    objectSequence := fun o ho => hs.objectSequence o (List.mem_of_mem_filter ho)
    instanceObjects := by
      intro i hi
      obtain ⟨owner, howner, hid⟩ := List.any_eq_true.mp (List.mem_filter.mp hi).2
      exact ⟨owner, howner, beq_iff_eq.mp hid⟩
    refObjects := by
      intro r hr
      obtain ⟨owner, howner, hid⟩ := List.any_eq_true.mp (List.mem_filter.mp hr).2
      exact ⟨owner, howner, beq_iff_eq.mp hid⟩ }

theorem Constrained.deleteProjectRow (hs : s.Constrained) (projectId : ℤ) :
    (s.deleteProjectRow projectId).Constrained :=
  ((hs.keepSymbols _).keepObjects _).of_eq rfl rfl rfl rfl rfl

theorem Constrained.deleteRootLayer (hs : s.Constrained) (layerId : ℤ) :
    (s.deleteRootLayer layerId).Constrained :=
  (((hs.keepSymbols _).keepObjects _).filterRows _ _).of_eq rfl rfl rfl rfl rfl

theorem Constrained.purgeEphCache (hs : s.Constrained) : s.purgeEphCache.Constrained :=
  hs.of_eq rfl rfl rfl rfl rfl

theorem Constrained.deleteProject (hs : s.Constrained) (projectId : ℤ) :
    (s.deleteProject projectId).store.Constrained := by
  have hrange : (s.deleteSymbolRange projectId).Constrained := hs.filterRows _ _
  have hproject := ((hrange.keepSymbols (·.projectId != projectId)).keepObjects
    (·.row.projectId != projectId)).deleteProjectRow projectId
  unfold Store.deleteProject
  cases s.findProject projectId with
  | none => exact hproject.purgeEphCache
  | some p => exact (hproject.deleteRootLayer p.rootLayerId).purgeEphCache

/-! ### Symbols and contents -/

theorem Constrained.insertSymbol {s' : Store} {row : NewSymbol} (hs : s.Constrained)
    (h : s.insertSymbol row = .ok s') : s'.Constrained := by
  unfold Store.insertSymbol at h
  split at h
  · cases h
  · obtain rfl := Except.ok.inj h
    have hmore : ∀ id, (∃ y ∈ s.symbols, y.id = id) → ∃ y ∈ s.symbols ++ [row], y.id = id :=
      fun id ⟨y, hy, hid⟩ => ⟨y, List.mem_append_left _ hy, hid⟩
    exact
      { hs with
        instanceSymbols := fun i hi => hmore i.symbol (hs.instanceSymbols i hi)
        refSymbols := fun r hr => hmore r.toSymbol (hs.refSymbols r hr) }

theorem Constrained.insertSymbols {s' : Store} {symbols : List UploadSymbol} (hs : s.Constrained)
    (h : s.insertSymbols projectId symbols = .ok s') : s'.Constrained := by
  obtain ⟨root, -, h⟩ := Fallible.bind_eq_ok.mp h
  obtain ⟨rows, -, h⟩ := Fallible.bind_eq_ok.mp h
  exact Fallible.invariant_of_foldlM (I := Constrained) (fun _ _ => Constrained.insertSymbol) h hs

theorem Constrained.insertContents (hs : s.Constrained) (rows : List NewContentStoreRow) :
    (rows.foldl insertContent s).Constrained := by
  obtain ⟨contentStore, h⟩ := insertContents_eq s rows
  rw [h]
  exact hs.of_eq rfl rfl rfl rfl rfl

end Store

end Askl
