import Askl.Index.Filters
import Askl.Library.Keyed

/-!
# The shared query builders

The five join queries of the index, built against a visibility token.  A token
records every layer column it constrains, and the guard of the ephemeral branch
negates the conjunction of exactly those columns being positive.

## Main definitions

* `Query` — the rows a query has selected so far, and the recorded columns.
* `Query.pred`, `Query.guard` — the two uses of a token.
* `currentQuery`, `parentsQuery`, `childrenQuery`, `hasParentsQuery`,
  `hasChildrenQuery`, `cteHasChildrenQuery` — the builders, with the filter and the
  guard their callers end them with.
* `CurrentRow.key` and its like — the row identities of the branch merge.

## Main results

* `nodup_currentRows` and its like — the join of each query repeats no key.
-/

namespace Askl

open Keyed

/-! ### Tokens -/

/-- A query under construction: its rows, and the layer columns its visibility token
has recorded, in order. -/
structure Query (R : Type*) where
  rows : List R
  applied : List (R → ℤ)

namespace Query

variable {R : Type*}

/-- A query over joined rows. -/
def ofRows (rows : List R) : Query R := ⟨rows, []⟩

/-- A plain `WHERE` conjunct. -/
def filter (q : Query R) (p : R → Bool) : Query R := { q with rows := q.rows.filter p }

/-- The conjunct of a filter tree, when it constrains the query. -/
def filterOpt (q : Query R) : Option (R → Bool) → Query R
  | none => q
  | some p => q.filter p

/-- The visibility conjunct of a selected layer column, which the token records. -/
def pred (q : Query R) (vis : VisibilitySpec) (column : R → ℤ) : Query R where
  rows := q.rows.filter fun r => vis.admits (column r)
  applied := q.applied ++ [column]

/-- What the guard lets pass: in the ephemeral branch, the rows with some recorded
column that is not positive. -/
def guardPasses (vis : VisibilitySpec) (applied : List (R → ℤ)) (r : R) : Bool :=
  match vis with
  | .ephTouching _ => applied.isEmpty || !(applied.all fun c => decide (0 < c r))
  | _ => true

/-- The disjointness guard of the ephemeral branch, over the columns recorded so far. -/
def guard (q : Query R) (vis : VisibilitySpec) : Query R :=
  q.filter (guardPasses vis q.applied)

/-- Whether a row passes the conjunct of a filter tree. -/
def passes (e : Option (R → Bool)) (r : R) : Bool := match e with
  | none => true
  | some p => p r

@[simp] theorem rows_ofRows (rows : List R) : (ofRows rows).rows = rows := rfl

@[simp] theorem applied_ofRows (rows : List R) : (ofRows rows).applied = [] := rfl

@[simp] theorem rows_filter (q : Query R) (p : R → Bool) :
    (q.filter p).rows = q.rows.filter p := rfl

@[simp] theorem applied_filter (q : Query R) (p : R → Bool) :
    (q.filter p).applied = q.applied := rfl

@[simp] theorem rows_filterOpt (q : Query R) (e : Option (R → Bool)) :
    (q.filterOpt e).rows = q.rows.filter (passes e) := by
  cases e with
  | none => exact (List.filter_eq_self.mpr fun _ _ => rfl).symm
  | some p => rfl

@[simp] theorem applied_filterOpt (q : Query R) (e : Option (R → Bool)) :
    (q.filterOpt e).applied = q.applied := by
  cases e <;> rfl

@[simp] theorem rows_pred (q : Query R) (vis : VisibilitySpec) (column : R → ℤ) :
    (q.pred vis column).rows = q.rows.filter fun r => vis.admits (column r) := rfl

@[simp] theorem applied_pred (q : Query R) (vis : VisibilitySpec) (column : R → ℤ) :
    (q.pred vis column).applied = q.applied ++ [column] := rfl

@[simp] theorem rows_guard (q : Query R) (vis : VisibilitySpec) :
    (q.guard vis).rows = q.rows.filter (guardPasses vis q.applied) := rfl

@[simp] theorem applied_guard (q : Query R) (vis : VisibilitySpec) :
    (q.guard vis).applied = q.applied := rfl

end Query

variable (db : Database)

/-! ### Current -/

/-- `symbols ⋈ symbol_instances ⋈ projects ⋈ objects`. -/
def currentRows : List CurrentRow :=
  (join (join (join db.symbols db.symbolInstances fun s i => s.id == i.symbol)
      db.projects fun si p => si.1.projectId == p.id)
      db.objects fun sip o => o.id == sip.1.2.objectId).map
    fun r => ⟨r.1.1.1, r.1.1.2, r.2, r.1.2⟩

/-- `build_current_query`. -/
def buildCurrentQuery (vis : VisibilitySpec) : Query CurrentRow :=
  ((Query.ofRows (currentRows db)).pred vis (·.symbol.layer)).pred vis (·.symbolInstance.layer)

/-- The current query of a filter tree. -/
def currentQuery (f : CompositeFilter) (vis : VisibilitySpec) : Query CurrentRow :=
  ((buildCurrentQuery db vis).filterOpt (f.composeCurrent db)).guard vis

/-! ### Parents and children -/

/-- `symbol_refs ⋈ symbols ⋈ symbol_instances ⋈ parent_decls ⋈ parent_symbols`. -/
def parentsRows : List ParentsRow :=
  (join (join (join (join db.symbolRefs db.symbols fun r s => r.toSymbol == s.id)
      db.symbolInstances fun rs i => rs.2.id == i.symbol)
      db.symbolInstances fun rsi d => d.objectId == rsi.1.1.fromObject)
      db.symbols fun rsid ps => ps.id == rsid.2.symbol).map
    fun r => ⟨r.1.1.1.1, r.1.1.1.2, r.1.1.2, r.1.2, r.2⟩

/-- `build_parents_query`. -/
def buildParentsQuery (sourceIds : List ℤ) (vis : VisibilitySpec) : Query ParentsRow :=
  (((((((Query.ofRows (parentsRows db)).filter
      fun r => r.parentDecl.offsetRange.contains r.symbolRef.fromOffsetRange).filter
      fun r => sourceIds.contains r.symbolInstance.id).pred vis (·.symbolRef.layer)).pred
      vis (·.symbol.layer)).pred vis (·.symbolInstance.layer)).pred
      vis (·.parentDecl.layer)).pred vis (·.parentSymbol.layer)

/-- The parents query of a filter tree, restricted to the given parent instances when
the statement has a parent scope. -/
def parentsQuery (f : CompositeFilter) (sourceIds : List ℤ) (scopeIds : Option (List ℤ))
    (vis : VisibilitySpec) : Query ParentsRow :=
  (((buildParentsQuery db sourceIds vis).filterOpt f.composeParents).filterOpt
    (scopeIds.map fun ids r => ids.contains r.parentDecl.id)).guard vis

/-- The rows of the parents query joined with the object of the parent. -/
def childrenRows : List ChildrenRow :=
  (join (parentsRows db) db.objects fun r o => o.id == r.parentDecl.objectId).map
    fun r => ⟨r.1.symbolRef, r.1.symbol, r.1.symbolInstance, r.1.parentDecl, r.1.parentSymbol,
      r.2⟩

/-- `build_children_query`. -/
def buildChildrenQuery (sourceIds : List ℤ) (vis : VisibilitySpec) : Query ChildrenRow :=
  (((((((Query.ofRows (childrenRows db)).filter
      fun r => r.parentDecl.offsetRange.contains r.symbolRef.fromOffsetRange).filter
      fun r => sourceIds.contains r.parentDecl.id).pred vis (·.symbolRef.layer)).pred
      vis (·.symbol.layer)).pred vis (·.symbolInstance.layer)).pred
      vis (·.parentDecl.layer)).pred vis (·.parentSymbol.layer)

/-- The children query of a filter tree, restricted to the given child instances when
the statement has a children scope. -/
def childrenQuery (f : CompositeFilter) (sourceIds : List ℤ) (scopeIds : Option (List ℤ))
    (vis : VisibilitySpec) : Query ChildrenRow :=
  (((buildChildrenQuery db sourceIds vis).filterOpt (f.composeChildren db vis)).filterOpt
    (scopeIds.map fun ids r => ids.contains r.symbolInstance.id)).guard vis

/-! ### Containment -/

/-- `symbol_instances ⋈ symbols ⋈ symbol_types`. -/
def typedInstances : List ((SymbolInstance × Symbol) × SymbolType) :=
  join (join db.symbolInstances db.symbols fun i s => i.symbol == s.id)
    db.symbolTypes fun is t => is.2.symbolType == t.id

/-- Two typed instances of one object. -/
def hasParentsRows : List HasParentsRow :=
  (join (typedInstances db) (typedInstances db)
    fun r c => c.1.1.objectId == r.1.1.objectId).map
    fun r => ⟨r.1.1.1, r.1.1.2, r.1.2, r.2.1.1, r.2.1.2, r.2.2⟩

/-- `build_has_parents_query`. -/
def buildHasParentsQuery (sourceIds : List ℤ) (vis : VisibilitySpec) : Query HasParentsRow :=
  ((((((((Query.ofRows (hasParentsRows db)).filter
      fun r => sourceIds.contains r.symbolInstance.id).filter
      fun r => r.containerInstance.offsetRange.contains r.symbolInstance.offsetRange).filter
      fun r => decide (r.symbolType.level ≤ r.containerType.level)).filter
      fun r => !(r.containerInstance.id == r.symbolInstance.id)).pred
      vis (·.symbol.layer)).pred vis (·.symbolInstance.layer)).pred
      vis (·.containerSymbol.layer)).pred vis (·.containerInstance.layer)

/-- The has-parents query of a filter tree. -/
def hasParentsQuery (f : CompositeFilter) (sourceIds : List ℤ) (vis : VisibilitySpec) :
    Query HasParentsRow :=
  ((buildHasParentsQuery db sourceIds vis).filterOpt (f.composeHasParents db vis)).guard vis

/-- Two typed instances of one object, with the object. -/
def hasChildrenRows : List HasChildrenRow :=
  (join (join (typedInstances db) db.objects fun r o => o.id == r.1.1.objectId)
    (typedInstances db) fun ro c => c.1.1.objectId == ro.1.1.1.objectId).map
    fun r => ⟨r.1.1.1.1, r.1.1.1.2, r.1.1.2, r.1.2, r.2.1.1, r.2.1.2, r.2.2⟩

/-- `build_has_children_inner`, over the predicate that selects the source rows. -/
def buildHasChildrenInner (vis : VisibilitySpec) (sourceFilter : HasChildrenRow → Bool) :
    Query HasChildrenRow :=
  ((((((((Query.ofRows (hasChildrenRows db)).filter sourceFilter).filter
      fun r => r.symbolInstance.offsetRange.contains r.containedInstance.offsetRange).filter
      fun r => decide (r.containedType.level ≤ r.symbolType.level)).filter
      fun r => !(r.symbolInstance.id == r.containedInstance.id)).pred
      vis (·.symbol.layer)).pred vis (·.symbolInstance.layer)).pred
      vis (·.containedSymbol.layer)).pred vis (·.containedInstance.layer)

/-- `build_has_children_query`. -/
def buildHasChildrenQuery (sourceIds : List ℤ) (vis : VisibilitySpec) :
    Query HasChildrenRow :=
  buildHasChildrenInner db vis fun r => sourceIds.contains r.symbolInstance.id

/-- The plain has-children query of a filter tree. -/
def hasChildrenQuery (f : CompositeFilter) (sourceIds : List ℤ) (vis : VisibilitySpec) :
    Query HasChildrenRow :=
  ((buildHasChildrenQuery db sourceIds vis).filterOpt (f.composeHasChildren db vis)).guard vis

/-- `build_has_children_cte_body`: the ids of the visible source instances.  The column
sits in a subquery, so the token does not record it. -/
def hasChildrenCteBody (sourceIds : List ℤ) (vis : VisibilitySpec) : List ℤ :=
  (db.symbolInstances.filter
    fun i => sourceIds.contains i.id && vis.admits i.layer).map (·.id)

/-- `CteHasChildren`: the has-children query against the candidate table. -/
def cteHasChildrenQuery (sourceIds : List ℤ) (vis : VisibilitySpec) : Query HasChildrenRow :=
  (buildHasChildrenInner db vis
    fun r => (hasChildrenCteBody db sourceIds vis).contains r.symbolInstance.id).guard vis

/-! ### Row keys -/

/-- The instance determines a current row. -/
def CurrentRow.key (r : CurrentRow) : ℤ := r.symbolInstance.id

/-- Reference, declaration instance, parent instance. -/
def ParentsRow.key (r : ParentsRow) : ℤ × ℤ × ℤ :=
  (r.symbolRef.id, r.symbolInstance.id, r.parentDecl.id)

/-- Reference, callee instance, parent instance. -/
def ChildrenRow.key (r : ChildrenRow) : ℤ × ℤ × ℤ :=
  (r.symbolRef.id, r.symbolInstance.id, r.parentDecl.id)

/-- Child instance, parent instance. -/
def HasParentsRow.key (r : HasParentsRow) : ℤ × ℤ :=
  (r.symbolInstance.id, r.containerInstance.id)

/-- Parent instance, child instance. -/
def HasChildrenRow.key (r : HasChildrenRow) : ℤ × ℤ :=
  (r.symbolInstance.id, r.containedInstance.id)

/-! ### What the joins hold -/

theorem mem_currentRows {r : CurrentRow} : r ∈ currentRows db ↔
    r.symbol ∈ db.symbols ∧ r.symbolInstance ∈ db.symbolInstances ∧ r.object ∈ db.objects ∧
      r.project ∈ db.projects ∧ r.symbol.id = r.symbolInstance.symbol ∧
      r.symbol.projectId = r.project.id ∧ r.object.id = r.symbolInstance.objectId := by
  obtain ⟨s, i, o, p⟩ := r
  simp only [currentRows, List.mem_map, mem_join, Prod.exists, beq_iff_eq, CurrentRow.mk.injEq]
  constructor
  · rintro ⟨s, i, p, o, ⟨⟨⟨hs, hi, hsi⟩, hp, hsp⟩, ho, hoi⟩, rfl, rfl, rfl, rfl⟩
    exact ⟨hs, hi, ho, hp, hsi, hsp, hoi⟩
  · rintro ⟨hs, hi, ho, hp, hsi, hsp, hoi⟩
    exact ⟨s, i, p, o, ⟨⟨⟨hs, hi, hsi⟩, hp, hsp⟩, ho, hoi⟩, rfl, rfl, rfl, rfl⟩

theorem mem_parentsRows {r : ParentsRow} : r ∈ parentsRows db ↔
    r.symbolRef ∈ db.symbolRefs ∧ r.symbol ∈ db.symbols ∧
      r.symbolInstance ∈ db.symbolInstances ∧ r.parentDecl ∈ db.symbolInstances ∧
      r.parentSymbol ∈ db.symbols ∧ r.symbolRef.toSymbol = r.symbol.id ∧
      r.symbol.id = r.symbolInstance.symbol ∧ r.parentDecl.objectId = r.symbolRef.fromObject ∧
      r.parentSymbol.id = r.parentDecl.symbol := by
  obtain ⟨f, s, i, d, ps⟩ := r
  simp only [parentsRows, List.mem_map, mem_join, Prod.exists, beq_iff_eq, ParentsRow.mk.injEq]
  constructor
  · rintro ⟨f, s, i, d, ps, ⟨⟨⟨⟨hf, hs, hfs⟩, hi, hsi⟩, hd, hdf⟩, hps, hpd⟩, rfl, rfl, rfl,
      rfl, rfl⟩
    exact ⟨hf, hs, hi, hd, hps, hfs, hsi, hdf, hpd⟩
  · rintro ⟨hf, hs, hi, hd, hps, hfs, hsi, hdf, hpd⟩
    exact ⟨f, s, i, d, ps, ⟨⟨⟨⟨hf, hs, hfs⟩, hi, hsi⟩, hd, hdf⟩, hps, hpd⟩, rfl, rfl, rfl,
      rfl, rfl⟩

theorem mem_typedInstances {r : (SymbolInstance × Symbol) × SymbolType} :
    r ∈ typedInstances db ↔ r.1.1 ∈ db.symbolInstances ∧ r.1.2 ∈ db.symbols ∧
      r.2 ∈ db.symbolTypes ∧ r.1.1.symbol = r.1.2.id ∧ r.1.2.symbolType = r.2.id := by
  simp only [typedInstances, mem_join, beq_iff_eq]
  tauto

/-- A typed instance is determined by the id of the instance. -/
theorem typedInstances_inj {r r' : (SymbolInstance × Symbol) × SymbolType}
    (h : r ∈ typedInstances db) (h' : r' ∈ typedInstances db) (hid : r.1.1.id = r'.1.1.id) :
    r = r' := by
  obtain ⟨⟨i, s⟩, t⟩ := r
  obtain ⟨⟨i', s'⟩, t'⟩ := r'
  obtain ⟨hi, hs, ht, his, hst⟩ := (mem_typedInstances db).mp h
  obtain ⟨hi', hs', ht', his', hst'⟩ := (mem_typedInstances db).mp h'
  have hii : i = i' := db.instance_eq_of_id hi hi' hid
  subst hii
  have hss : s = s' := db.symbol_eq_of_id hs hs' (his.symm.trans his')
  subst hss
  have htt : t = t' := eq_of_key db.symbolTypes_nodup ht ht' (hst.symm.trans hst')
  subst htt
  rfl

/-! ### Keys do not repeat -/

theorem nodup_typedInstances : (typedInstances db).Nodup :=
  nodup_join (nodup_join (.of_map _ db.symbolInstances_nodup) (.of_map _ db.symbols_nodup))
    (.of_map _ db.symbolTypes_nodup)

theorem nodup_currentRows : ((currentRows db).map CurrentRow.key).Nodup := by
  have hnd : (currentRows db).Nodup := by
    refine (nodup_join (nodup_join (nodup_join (.of_map _ db.symbols_nodup)
      (.of_map _ db.symbolInstances_nodup)) (.of_map _ db.projects_nodup))
      (.of_map _ db.objects_nodup)).map ?_
    rintro ⟨⟨⟨s, i⟩, p⟩, o⟩ ⟨⟨⟨s', i'⟩, p'⟩, o'⟩ h
    simp_all
  refine List.Nodup.map_on ?_ hnd
  intro r hr r' hr' hkey
  obtain ⟨hs, hi, ho, hp, hsi, hsp, hoi⟩ := (mem_currentRows db).mp hr
  obtain ⟨hs', hi', ho', hp', hsi', hsp', hoi'⟩ := (mem_currentRows db).mp hr'
  obtain ⟨s, i, o, p⟩ := r
  obtain ⟨s', i', o', p'⟩ := r'
  have hii : i = i' := db.instance_eq_of_id hi hi' hkey
  subst hii
  have hss : s = s' := db.symbol_eq_of_id hs hs' (hsi.trans hsi'.symm)
  subst hss
  have hpp : p = p' := eq_of_key db.projects_nodup hp hp' (hsp.symm.trans hsp')
  have hoo : o = o' := eq_of_key db.objects_nodup ho ho' (hoi.trans hoi'.symm)
  rw [hpp, hoo]

theorem parentsRows_inj {r r' : ParentsRow} (h : r ∈ parentsRows db)
    (h' : r' ∈ parentsRows db) (hkey : r.key = r'.key) : r = r' := by
  obtain ⟨hf, hs, hi, hd, hps, hfs, hsi, hdf, hpd⟩ := (mem_parentsRows db).mp h
  obtain ⟨hf', hs', hi', hd', hps', hfs', hsi', hdf', hpd'⟩ := (mem_parentsRows db).mp h'
  obtain ⟨f, s, i, d, ps⟩ := r
  obtain ⟨f', s', i', d', ps'⟩ := r'
  simp only [ParentsRow.key, Prod.mk.injEq] at hkey
  obtain ⟨hff, hii, hdd⟩ := hkey
  have hii : i = i' := db.instance_eq_of_id hi hi' hii
  subst hii
  have hdd : d = d' := db.instance_eq_of_id hd hd' hdd
  subst hdd
  have hff : f = f' := eq_of_key db.symbolRefs_nodup hf hf' hff
  have hss : s = s' := db.symbol_eq_of_id hs hs' (hsi.trans hsi'.symm)
  have hpp : ps = ps' := db.symbol_eq_of_id hps hps' (hpd.trans hpd'.symm)
  rw [hff, hss, hpp]

theorem nodup_parentsRows' : (parentsRows db).Nodup := by
  have hsym := List.Nodup.of_map _ db.symbols_nodup
  have hinst := List.Nodup.of_map _ db.symbolInstances_nodup
  refine (nodup_join (nodup_join (nodup_join (nodup_join (.of_map _ db.symbolRefs_nodup) hsym)
    hinst) hinst) hsym).map ?_
  rintro ⟨⟨⟨⟨f, s⟩, i⟩, d⟩, ps⟩ ⟨⟨⟨⟨f', s'⟩, i'⟩, d'⟩, ps'⟩ h
  simp_all

theorem nodup_parentsRows : ((parentsRows db).map ParentsRow.key).Nodup :=
  List.Nodup.map_on (fun _ hr _ hr' hkey => parentsRows_inj db hr hr' hkey)
    (nodup_parentsRows' db)

theorem nodup_childrenRows : ((childrenRows db).map ChildrenRow.key).Nodup := by
  have hnd : (childrenRows db).Nodup := by
    refine (nodup_join (nodup_parentsRows' db) (.of_map _ db.objects_nodup)).map ?_
    rintro ⟨⟨f, s, i, d, ps⟩, o⟩ ⟨⟨f', s', i', d', ps'⟩, o'⟩ h
    simp_all
  refine List.Nodup.map_on ?_ hnd
  intro r hr r' hr' hkey
  obtain ⟨⟨p, o⟩, hpo, rfl⟩ := List.mem_map.mp hr
  obtain ⟨⟨p', o'⟩, hpo', rfl⟩ := List.mem_map.mp hr'
  obtain ⟨hp, ho, hop⟩ := mem_join.mp hpo
  obtain ⟨hp', ho', hop'⟩ := mem_join.mp hpo'
  have hpp : p = p' := parentsRows_inj db hp hp' hkey
  subst hpp
  simp only [beq_iff_eq] at hop hop'
  have hoo : o = o' := eq_of_key db.objects_nodup ho ho' (hop.trans hop'.symm)
  rw [hoo]

theorem nodup_hasParentsRows : ((hasParentsRows db).map HasParentsRow.key).Nodup := by
  have hnd : (hasParentsRows db).Nodup := by
    refine (nodup_join (nodup_typedInstances db) (nodup_typedInstances db)).map ?_
    rintro ⟨⟨⟨i, s⟩, t⟩, ⟨⟨c, cs⟩, ct⟩⟩ ⟨⟨⟨i', s'⟩, t'⟩, ⟨⟨c', cs'⟩, ct'⟩⟩ h
    simp_all
  refine List.Nodup.map_on ?_ hnd
  intro r hr r' hr' hkey
  obtain ⟨⟨a, b⟩, hab, rfl⟩ := List.mem_map.mp hr
  obtain ⟨⟨a', b'⟩, hab', rfl⟩ := List.mem_map.mp hr'
  obtain ⟨ha, hb, -⟩ := mem_join.mp hab
  obtain ⟨ha', hb', -⟩ := mem_join.mp hab'
  simp only [HasParentsRow.key, Prod.mk.injEq] at hkey
  have haa : a = a' := typedInstances_inj db ha ha' hkey.1
  have hbb : b = b' := typedInstances_inj db hb hb' hkey.2
  subst haa hbb
  rfl

theorem nodup_hasChildrenRows : ((hasChildrenRows db).map HasChildrenRow.key).Nodup := by
  have hnd : (hasChildrenRows db).Nodup := by
    refine (nodup_join (nodup_join (nodup_typedInstances db) (.of_map _ db.objects_nodup))
      (nodup_typedInstances db)).map ?_
    rintro ⟨⟨⟨⟨i, s⟩, t⟩, o⟩, ⟨⟨c, cs⟩, ct⟩⟩ ⟨⟨⟨⟨i', s'⟩, t'⟩, o'⟩, ⟨⟨c', cs'⟩, ct'⟩⟩ h
    simp_all
  refine List.Nodup.map_on ?_ hnd
  intro r hr r' hr' hkey
  obtain ⟨⟨⟨a, o⟩, b⟩, hab, rfl⟩ := List.mem_map.mp hr
  obtain ⟨⟨⟨a', o'⟩, b'⟩, hab', rfl⟩ := List.mem_map.mp hr'
  obtain ⟨hao, hb, -⟩ := mem_join.mp hab
  obtain ⟨hao', hb', -⟩ := mem_join.mp hab'
  obtain ⟨ha, ho, hoa⟩ := mem_join.mp hao
  obtain ⟨ha', ho', hoa'⟩ := mem_join.mp hao'
  simp only [HasChildrenRow.key, Prod.mk.injEq] at hkey
  have haa : a = a' := typedInstances_inj db ha ha' hkey.1
  have hbb : b = b' := typedInstances_inj db hb hb' hkey.2
  subst haa hbb
  simp only [beq_iff_eq] at hoa hoa'
  have hoo : o = o' := eq_of_key db.objects_nodup ho ho' (hoa.trans hoa'.symm)
  rw [hoo]

end Askl
