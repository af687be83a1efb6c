import Askl.Index.Selection

/-!
# Containment queries

The has-children query runs in two forms.  When the filter tree constrains contained
instances, the plain form carries the composed filter; otherwise a form with a table of
candidates runs, without a filter.  A probe over the tree decides.

## Main definitions

* `CompositeFilter.hasChildrenMark` — what the constraint of a tree comes from.
* `FastPathAgrees` — the probe is right, and so are the rows of either form.
* `Contains`, `Between` — containment, and what lies strictly between two instances.

## Main results

* `fastPathAgrees_iff` — **the forms agree unless the constraint of the tree comes from
  empty disjunctions alone.**
* `fastPath_drops_emptyOr` — an empty disjunction matches nothing, and the rows are loaded.
* `directChild_iff` — **direct children and innermost parents are dual but for what is
  between them and of a higher level than the container.**
-/

namespace Askl

/-! ### The probe -/

/-- What the constraint of a filter tree on has-children rows comes from: nothing, empty
disjunctions alone, or `DirectOnly` leaves. -/
inductive HasChildrenMark where
  | free
  | emptyOr
  | directOnly
  deriving DecidableEq, Repr

namespace HasChildrenMark

/-- The mark of a conjunction: the stronger of the two. -/
def strongest : HasChildrenMark → HasChildrenMark → HasChildrenMark
  | directOnly, _ => directOnly
  | emptyOr, directOnly => directOnly
  | emptyOr, _ => emptyOr
  | free, m => m

/-- The mark of a disjunction: the weaker of the two. -/
def weakest : HasChildrenMark → HasChildrenMark → HasChildrenMark
  | free, _ => free
  | emptyOr, free => free
  | emptyOr, _ => emptyOr
  | directOnly, m => m

/-- The mark of a conjunction. -/
def strongestOf : List HasChildrenMark → HasChildrenMark
  | [] => free
  | m :: ms => strongest m (strongestOf ms)

/-- The mark of a disjunction. -/
def weakestOf : List HasChildrenMark → HasChildrenMark
  | [] => emptyOr
  | [m] => m
  | m :: ms => weakest m (weakestOf ms)

theorem weakestOf_cons_cons (m m' : HasChildrenMark) (ms : List HasChildrenMark) :
    weakestOf (m :: m' :: ms) = weakest m (weakestOf (m' :: ms)) := rfl

theorem strongestOf_eq_directOnly {ms : List HasChildrenMark} :
    strongestOf ms = directOnly ↔ directOnly ∈ ms := by
  induction ms with
  | nil => simp [strongestOf]
  | cons m ms ih =>
    rw [strongestOf, List.mem_cons, ← ih]
    cases m <;> cases strongestOf ms <;> decide

theorem strongestOf_eq_free {ms : List HasChildrenMark} :
    strongestOf ms = free ↔ ∀ m ∈ ms, m = free := by
  induction ms with
  | nil => simp [strongestOf]
  | cons m ms ih =>
    rw [strongestOf, List.forall_mem_cons, ← ih]
    cases m <;> cases strongestOf ms <;> decide

theorem weakestOf_eq_directOnly : ∀ ms : List HasChildrenMark,
    weakestOf ms = directOnly ↔ ms ≠ [] ∧ ∀ m ∈ ms, m = directOnly
  | [] => by simp [weakestOf]
  | [m] => by simp [weakestOf]
  | m :: m' :: ms => by
    have ih := weakestOf_eq_directOnly (m' :: ms)
    rw [and_iff_right (List.cons_ne_nil m' ms)] at ih
    rw [weakestOf_cons_cons, and_iff_right (List.cons_ne_nil m (m' :: ms)),
      List.forall_mem_cons, ← ih]
    cases m <;> cases weakestOf (m' :: ms) <;> decide

theorem weakestOf_eq_free : ∀ ms : List HasChildrenMark,
    weakestOf ms = free ↔ free ∈ ms
  | [] => by simp [weakestOf]
  | [m] => by simp [weakestOf, eq_comm]
  | m :: m' :: ms => by
    have ih := weakestOf_eq_free (m' :: ms)
    rw [weakestOf_cons_cons, List.mem_cons, ← ih]
    cases m <;> cases weakestOf (m' :: ms) <;> decide

end HasChildrenMark

namespace CompositeFilter

open HasChildrenMark

mutual

/-- What the constraint of a tree on has-children rows comes from. -/
def hasChildrenMark : CompositeFilter → HasChildrenMark
  | .leaf l => if l = .directOnly then .directOnly else .free
  | .and cs => strongestOf (childMarks cs)
  | .or cs => weakestOf (childMarks cs)
  | .not c => hasChildrenMark c

/-- The marks of the children, in order. -/
def childMarks : List CompositeFilter → List HasChildrenMark
  | [] => []
  | c :: cs => hasChildrenMark c :: childMarks cs

end

mutual

/-- The probe finds the trees that `DirectOnly` leaves constrain. -/
theorem constrainsHasChildren_iff : ∀ f : CompositeFilter,
    f.constrainsHasChildren = true ↔ f.hasChildrenMark = .directOnly
  | .leaf l => by
    rw [constrainsHasChildren, hasChildrenMark]
    cases l <;> simp [FilterLeaf.constrainsHasChildren]
  | .and cs => by
    rw [constrainsHasChildren, hasChildrenMark, strongestOf_eq_directOnly,
      constrainsHasChildrenAny_iff cs]
  | .or cs => by
    rw [constrainsHasChildren, hasChildrenMark, weakestOf_eq_directOnly, Bool.and_eq_true,
      constrainsHasChildrenAll_iff cs]
    cases cs <;> simp [childMarks]
  | .not c => by
    rw [constrainsHasChildren, hasChildrenMark, constrainsHasChildren_iff c]

theorem constrainsHasChildrenAny_iff : ∀ cs : List CompositeFilter,
    constrainsHasChildrenAny cs = true ↔ .directOnly ∈ childMarks cs
  | [] => by simp [constrainsHasChildrenAny, childMarks]
  | c :: cs => by
    rw [constrainsHasChildrenAny, childMarks, Bool.or_eq_true, List.mem_cons,
      constrainsHasChildren_iff c, constrainsHasChildrenAny_iff cs, eq_comm]

theorem constrainsHasChildrenAll_iff : ∀ cs : List CompositeFilter,
    constrainsHasChildrenAll cs = true ↔ ∀ m ∈ childMarks cs, m = .directOnly
  | [] => by simp [constrainsHasChildrenAll, childMarks]
  | c :: cs => by
    rw [constrainsHasChildrenAll, childMarks, Bool.and_eq_true, List.forall_mem_cons,
      constrainsHasChildren_iff c, constrainsHasChildrenAll_iff cs]

end

theorem foldAnd_eq_none {R : Type*} {es : List (Option (R → Bool))} :
    foldAnd es = none ↔ ∀ e ∈ es, e = none := by
  induction es with
  | nil => simp [foldAnd]
  | cons e es ih =>
    cases e with
    | none => simp [foldAnd, ih]
    | some p =>
      rw [foldAnd]
      split <;> simp

theorem foldOr_eq_none {R : Type*} {es : List (Option (R → Bool))} :
    foldOr es = none ↔ none ∈ es := by
  induction es with
  | nil => simp [foldOr]
  | cons e es ih =>
    cases e with
    | none => simp [foldOr]
    | some p => simp [foldOr, ih]

variable (db : Database) (vis : VisibilitySpec)

mutual

/-- A tree composes to a predicate unless nothing constrains. -/
theorem composeHasChildren_eq_none_iff : ∀ f : CompositeFilter,
    f.composeHasChildren db vis = none ↔ f.hasChildrenMark = .free
  | .leaf l => by
    rw [composeHasChildren, compose, hasChildrenMark]
    cases l <;> simp [FilterLeaf.hasChildrenExpr]
  | .and cs => by
    rw [composeHasChildren, compose, hasChildrenMark, foldAnd_eq_none, strongestOf_eq_free]
    exact (composeAll_none_iff cs).1
  | .or cs => by
    rw [composeHasChildren, compose, hasChildrenMark, foldOr_eq_none, weakestOf_eq_free]
    exact (composeAll_none_iff cs).2
  | .not c => by
    rw [composeHasChildren, compose, hasChildrenMark, Option.map_eq_none_iff]
    exact composeHasChildren_eq_none_iff c

/-- All children, and some child, compose to nothing. -/
theorem composeAll_none_iff : ∀ cs : List CompositeFilter,
    ((∀ e ∈ composeAll (FilterLeaf.hasChildrenExpr db vis) cs, e = none) ↔
      ∀ m ∈ childMarks cs, m = .free) ∧
    (none ∈ composeAll (FilterLeaf.hasChildrenExpr db vis) cs ↔ .free ∈ childMarks cs)
  | [] => by simp [composeAll, childMarks]
  | c :: cs => by
    have hc := composeHasChildren_eq_none_iff c
    rw [composeHasChildren] at hc
    obtain ⟨hall, hsome⟩ := composeAll_none_iff cs
    rw [composeAll, childMarks]
    rw [List.forall_mem_cons, List.forall_mem_cons, List.mem_cons, List.mem_cons, hall, hsome,
      hc, eq_comm (a := none), hc, eq_comm (b := c.hasChildrenMark)]
    exact ⟨Iff.rfl, Iff.rfl⟩

end

/-! ### The rows -/

variable {db vis} {f : CompositeFilter} {sourceIds : List ℤ}

/-- Without a composed filter the candidate-table form selects the rows of the plain one. -/
theorem cteHasChildrenQuery_eq (h : f.composeHasChildren db vis = none) :
    cteHasChildrenQuery db sourceIds vis = hasChildrenQuery db f sourceIds vis := by
  have hrows : (cteHasChildrenQuery db sourceIds vis).rows =
      (hasChildrenQuery db f sourceIds vis).rows := by
    rw [(splits_cteHasChildrenQuery db sourceIds).rows vis]
    simp only [hasChildrenQuery, buildHasChildrenQuery, buildHasChildrenInner, hasChildrenBase,
      hasChildrenColumns, h, Query.filterOpt, Query.rows_guard, Query.rows_filter,
      Query.rows_pred, Query.rows_ofRows, Query.applied_filter, Query.applied_pred,
      Query.applied_ofRows, List.nil_append, List.cons_append, List.filter_filter]
    refine List.filter_congr fun r _ => ?_
    simp only [List.all_cons, List.all_nil, Bool.and_true, Query.passes]
    grind
  have happlied : (cteHasChildrenQuery db sourceIds vis).applied =
      (hasChildrenQuery db f sourceIds vis).applied := by
    simp [cteHasChildrenQuery, hasChildrenQuery, buildHasChildrenQuery, buildHasChildrenInner]
  cases hcte : cteHasChildrenQuery db sourceIds vis
  cases hplain : hasChildrenQuery db f sourceIds vis
  rw [hcte, hplain] at hrows happlied
  exact congrArg₂ Query.mk hrows happlied

end CompositeFilter

/-- The fast path agrees with the plain path for a filter tree: the probe tells whether a
predicate is composed, whatever the visibility, and the rows that `find_symbol` and
`find_child_instance_ids` load are those of the plain query with the composed filter. -/
structure FastPathAgrees (f : CompositeFilter) : Prop where
  probe : ∀ (db : Database) (vis : VisibilitySpec),
    f.constrainsHasChildren = true ↔ (f.composeHasChildren db vis).isSome = true
  rows : ∀ (db : Database) (sourceIds : List ℤ) (eph : EphContext),
    selectHasChildren db f sourceIds eph =
      cachedLoadPartitioned HasChildrenRow.key eph f.isChainDependent
        (hasChildrenQuery db f sourceIds)

theorem FastPathAgrees.of_probe {f : CompositeFilter}
    (h : ∀ (db : Database) (vis : VisibilitySpec),
      f.constrainsHasChildren = true ↔ (f.composeHasChildren db vis).isSome = true) :
    FastPathAgrees f where
  probe := h
  rows db sourceIds eph := by
    unfold selectHasChildren
    split
    · rfl
    · next hfree =>
      have hnone : ∀ vis, f.composeHasChildren db vis = none := by
        intro vis
        rw [h db vis, Option.not_isSome_iff_eq_none] at hfree
        exact hfree
      have hquery : cteHasChildrenQuery db sourceIds = hasChildrenQuery db f sourceIds :=
        funext fun vis => CompositeFilter.cteHasChildrenQuery_eq (hnone vis)
      rw [hquery]

/-- **The fast path agrees with the plain path exactly when the constraint of the tree does
not come from empty disjunctions alone.** -/
theorem fastPathAgrees_iff (f : CompositeFilter) :
    FastPathAgrees f ↔ f.hasChildrenMark ≠ .emptyOr := by
  have hprobe := CompositeFilter.constrainsHasChildren_iff f
  have hnone := fun db vis => CompositeFilter.composeHasChildren_eq_none_iff db vis f
  constructor
  · intro h hmark
    have hsome := h.probe layeredDatabase (.combined [])
    rw [hprobe, hmark, Option.isSome_iff_ne_none, Ne, hnone, hmark] at hsome
    revert hsome
    decide
  · intro hmark
    refine .of_probe fun db vis => ?_
    rw [hprobe, Option.isSome_iff_ne_none, Ne, hnone]
    cases hf : f.hasChildrenMark with
    | free => decide
    | emptyOr => exact absurd hf hmark
    | directOnly => decide

/-- A function `a` with a function `b` in it. -/
def nestedDatabase : Database :=
  .singleFile [.plain 1 ['a'], .plain 2 ['b']]
    [.plain 1 1 0 10 (.refl true), .plain 2 2 2 4 (.refl true)] [] (.refl true) (.refl true)
    (.refl true)

/-- **An empty disjunction matches nothing, and the rows are loaded.** -/
theorem fastPath_drops_emptyOr :
    ¬ FastPathAgrees (.or []) ∧
      (selectHasChildren nestedDatabase (.or []) [1] (.rooted [⟨1, 1⟩])).map
        (·.containedInstance.id) = [2] ∧
      cachedLoadPartitioned HasChildrenRow.key (.rooted [⟨1, 1⟩])
        (CompositeFilter.or []).isChainDependent
        (hasChildrenQuery nestedDatabase (.or []) [1]) = [] := by
  refine ⟨?_, by decide +kernel, by decide +kernel⟩
  rw [fastPathAgrees_iff]
  exact fun h => h rfl

/-! ### Direct children and innermost parents -/

/-- An instance with its symbol and the symbol's type. -/
abbrev TypedInstance := (SymbolInstance × Symbol) × SymbolType

/-- The foreign keys of the containment joins. -/
structure Database.ForeignKeys (db : Database) : Prop where
  objects : ∀ i ∈ db.symbolInstances, ∃ o ∈ db.objects, o.id = i.objectId
  types : ∀ s ∈ db.symbols, ∃ t ∈ db.symbolTypes, t.id = s.symbolType

variable (db : Database) (vis : VisibilitySpec)

/-- An instance in a visible layer, with a symbol in a visible layer. -/
structure VisibleInstance (x : TypedInstance) : Prop where
  mem : x ∈ typedInstances db
  layer : vis.admits x.1.1.layer = true
  symbolLayer : vis.admits x.1.2.layer = true

/-- A visible instance contains another: it lies in the same object, covers its range and
has a type of at least its level. -/
structure Contains (x y : TypedInstance) : Prop where
  container : VisibleInstance db vis x
  contained : VisibleInstance db vis y
  object : y.1.1.objectId = x.1.1.objectId
  range : x.1.1.offsetRange.contains y.1.1.offsetRange = true
  level : y.2.level ≤ x.2.level
  ne : x.1.1.id ≠ y.1.1.id

/-- A visible instance strictly between two others, of whatever level. -/
structure Between (x y m : TypedInstance) : Prop where
  visible : VisibleInstance db vis m
  object : m.1.1.objectId = x.1.1.objectId
  outer : x.1.1.offsetRange.contains m.1.1.offsetRange = true
  inner : m.1.1.offsetRange.contains y.1.1.offsetRange = true
  range_ne_outer : m.1.1.offsetRange ≠ x.1.1.offsetRange
  range_ne_inner : m.1.1.offsetRange ≠ y.1.1.offsetRange
  ne_outer : m.1.1.id ≠ x.1.1.id
  ne_inner : m.1.1.id ≠ y.1.1.id

/-- A has-children row, from its two instances. -/
def hasChildrenRow (x y : TypedInstance) (o : Object) : HasChildrenRow :=
  ⟨x.1.1, x.1.2, x.2, o, y.1.1, y.1.2, y.2⟩

/-- A has-parents row, from the contained instance and its container. -/
def hasParentsRow (x y : TypedInstance) : HasParentsRow :=
  ⟨y.1.1, y.1.2, y.2, x.1.1, x.1.2, x.2⟩

variable {db vis}

theorem mem_typedSymbols {id : ℤ} {st : Symbol × SymbolType} :
    st ∈ FilterLeaf.typedSymbols db vis id ↔ st.1 ∈ db.symbols ∧ st.1.id = id ∧
      vis.admits st.1.layer = true ∧ st.2 ∈ db.symbolTypes ∧ st.2.id = st.1.symbolType := by
  obtain ⟨s, ty⟩ := st
  simp only [FilterLeaf.typedSymbols, List.mem_flatMap, List.mem_map, List.mem_filter,
    Bool.and_eq_true, beq_iff_eq, Prod.mk.injEq]
  constructor
  · rintro ⟨s, ⟨hs, hid, hvis⟩, ty, ⟨hty, htid⟩, rfl, rfl⟩
    exact ⟨hs, hid, hvis, hty, htid⟩
  · rintro ⟨hs, hid, hvis, hty, htid⟩
    exact ⟨s, ⟨hs, hid, hvis⟩, ty, ⟨hty, htid⟩, rfl, rfl⟩

theorem mem_hasChildrenRows {r : HasChildrenRow} : r ∈ hasChildrenRows db ↔
    ∃ x ∈ typedInstances db, ∃ y ∈ typedInstances db, ∃ o ∈ db.objects,
      o.id = x.1.1.objectId ∧ y.1.1.objectId = x.1.1.objectId ∧ hasChildrenRow x y o = r := by
  simp only [hasChildrenRows, List.mem_map, Keyed.mem_join, beq_iff_eq, hasChildrenRow]
  constructor
  · rintro ⟨⟨⟨x, o⟩, y⟩, ⟨⟨hx, ho, hox⟩, hy, hyx⟩, rfl⟩
    exact ⟨x, hx, y, hy, o, ho, hox, hyx, rfl⟩
  · rintro ⟨x, hx, y, hy, o, ho, hox, hyx, rfl⟩
    exact ⟨((x, o), y), ⟨⟨hx, ho, hox⟩, hy, hyx⟩, rfl⟩

theorem mem_hasParentsRows {r : HasParentsRow} : r ∈ hasParentsRows db ↔
    ∃ x ∈ typedInstances db, ∃ y ∈ typedInstances db,
      x.1.1.objectId = y.1.1.objectId ∧ hasParentsRow x y = r := by
  simp only [hasParentsRows, List.mem_map, Keyed.mem_join, beq_iff_eq, hasParentsRow]
  constructor
  · rintro ⟨⟨y, x⟩, ⟨hy, hx, hxy⟩, rfl⟩
    exact ⟨x, hx, y, hy, hxy, rfl⟩
  · rintro ⟨x, hx, y, hy, hxy, rfl⟩
    exact ⟨(y, x), ⟨hy, hx, hxy⟩, rfl⟩

/-- What `DirectOnly` drops: a row with an instance between that the container may hold. -/
theorem hasChildrenExpr_directOnly_iff {x y : TypedInstance} {o : Object} :
    (∃ e, FilterLeaf.hasChildrenExpr db vis .directOnly = some e ∧
      e (hasChildrenRow x y o) = true) ↔ ∀ m, Between db vis x y m → x.2.level < m.2.level := by
  simp only [FilterLeaf.hasChildrenExpr, Option.some.injEq, exists_eq_left', hasChildrenRow,
    Bool.not_eq_true', List.any_eq_false]
  constructor
  · intro h m hm
    by_contra hlevel
    obtain ⟨hmem, hlayer, hsymbol⟩ := hm.visible
    obtain ⟨hi, hs, ht, his, hst⟩ := (mem_typedInstances db).mp hmem
    refine h m.1.1 hi ?_
    simp only [Bool.and_eq_true, beq_iff_eq, Bool.not_eq_true', beq_eq_false_iff_ne,
      List.any_eq_true, decide_eq_true_eq]
    refine ⟨⟨⟨⟨⟨⟨⟨⟨hm.object, hm.outer⟩, hm.inner⟩, hm.range_ne_outer⟩, hm.range_ne_inner⟩,
      hm.ne_outer⟩, hm.ne_inner⟩, hlayer⟩, (m.1.2, m.2), ?_, Int.not_lt.mp hlevel⟩
    exact mem_typedSymbols.mpr ⟨hs, his.symm, hsymbol, ht, hst.symm⟩
  · intro h i hi hany
    simp only [Bool.and_eq_true, beq_iff_eq, Bool.not_eq_true', beq_eq_false_iff_ne,
      List.any_eq_true, decide_eq_true_eq] at hany
    obtain ⟨⟨⟨⟨⟨⟨⟨⟨hobject, houter⟩, hinner⟩, hro⟩, hri⟩, hne⟩, hne'⟩, hlayer⟩, st, hst, hle⟩ :=
      hany
    obtain ⟨hs, hid, hsymbol, ht, htid⟩ := mem_typedSymbols.mp hst
    have hmem : ((i, st.1), st.2) ∈ typedInstances db :=
      (mem_typedInstances db).mpr ⟨hi, hs, ht, hid.symm, htid.symm⟩
    have hlt := h ((i, st.1), st.2)
      ⟨⟨hmem, hlayer, hsymbol⟩, hobject, houter, hinner, hro, hri, hne, hne'⟩
    exact Int.not_lt.mpr hle hlt

/-- What `InnermostOnly` drops: a row with an instance between, of any level. -/
theorem hasParentsExpr_innermostOnly_iff (htypes : db.ForeignKeys) {x y : TypedInstance} :
    (∃ e, FilterLeaf.hasParentsExpr db vis .innermostOnly = some e ∧
      e (hasParentsRow x y) = true) ↔ ∀ m, ¬ Between db vis x y m := by
  simp only [FilterLeaf.hasParentsExpr, Option.some.injEq, exists_eq_left', hasParentsRow,
    Bool.not_eq_true', List.any_eq_false]
  constructor
  · intro h m hm
    obtain ⟨hmem, hlayer, hsymbol⟩ := hm.visible
    obtain ⟨hi, hs, ht, his, hst⟩ := (mem_typedInstances db).mp hmem
    refine h m.1.1 hi ?_
    simp only [Bool.and_eq_true, beq_iff_eq, Bool.not_eq_true', beq_eq_false_iff_ne,
      List.any_eq_true]
    exact ⟨⟨⟨⟨⟨⟨⟨⟨hm.object, hm.outer⟩, hm.inner⟩, hm.range_ne_outer⟩, hm.range_ne_inner⟩,
      hm.ne_outer⟩, hm.ne_inner⟩, hlayer⟩, m.1.2, hs, his.symm, hsymbol⟩
  · intro h i hi hany
    simp only [Bool.and_eq_true, beq_iff_eq, Bool.not_eq_true', beq_eq_false_iff_ne,
      List.any_eq_true] at hany
    obtain ⟨⟨⟨⟨⟨⟨⟨⟨hobject, houter⟩, hinner⟩, hro⟩, hri⟩, hne⟩, hne'⟩, hlayer⟩, s, hs, hid,
      hsymbol⟩ := hany
    obtain ⟨ty, hty, htid⟩ := htypes.types s hs
    have hmem : ((i, s), ty) ∈ typedInstances db :=
      (mem_typedInstances db).mpr ⟨hi, hs, hty, hid.symm, htid.symm⟩
    exact h ((i, s), ty)
      ⟨⟨hmem, hlayer, hsymbol⟩, hobject, houter, hinner, hro, hri, hne, hne'⟩

/-- The rows of a `DirectOnly` query. -/
theorem mem_hasChildrenQuery_directOnly {v ids : List ℤ} {r : HasChildrenRow} :
    r ∈ (hasChildrenQuery db (.leaf .directOnly) ids (.combined v)).rows ↔
      ∃ x y o, Contains db (.combined v) x y ∧ o ∈ db.objects ∧ o.id = x.1.1.objectId ∧
        x.1.1.id ∈ ids ∧ (∀ m, Between db (.combined v) x y m → x.2.level < m.2.level) ∧
        hasChildrenRow x y o = r := by
  obtain ⟨e, he⟩ : ∃ e, FilterLeaf.hasChildrenExpr db (.combined v) .directOnly = some e :=
    ⟨_, rfl⟩
  have hexpr : ∀ x y o, e (hasChildrenRow x y o) = true ↔
      ∀ m, Between db (.combined v) x y m → x.2.level < m.2.level := by
    intro x y o
    rw [← hasChildrenExpr_directOnly_iff (o := o), he]
    simp
  simp only [hasChildrenQuery, buildHasChildrenQuery, buildHasChildrenInner,
    CompositeFilter.composeHasChildren, CompositeFilter.compose, he, Query.filterOpt,
    Query.rows_guard, Query.guardPasses, Query.rows_filter, Query.rows_pred, Query.rows_ofRows,
    List.mem_filter, mem_hasChildrenRows, List.contains_iff_mem, decide_eq_true_eq,
    Bool.not_eq_true', beq_eq_false_iff_ne, and_true]
  constructor
  · rintro ⟨⟨⟨⟨⟨⟨⟨⟨⟨⟨x, hx, y, hy, o, ho, hox, hyx, rfl⟩, hid⟩, hrange⟩, hlevel⟩, hne⟩, hxs⟩,
      hxi⟩, hys⟩, hyi⟩, hmid⟩
    exact ⟨x, y, o, ⟨⟨hx, hxi, hxs⟩, ⟨hy, hyi, hys⟩, hyx, hrange, hlevel, hne⟩, ho, hox, hid,
      (hexpr x y o).mp hmid, rfl⟩
  · rintro ⟨x, y, o, h, ho, hox, hid, hmid, rfl⟩
    obtain ⟨hx, hxi, hxs⟩ := h.container
    obtain ⟨hy, hyi, hys⟩ := h.contained
    exact ⟨⟨⟨⟨⟨⟨⟨⟨⟨⟨x, hx, y, hy, o, ho, hox, h.object, rfl⟩, hid⟩, h.range⟩, h.level⟩, h.ne⟩,
      hxs⟩, hxi⟩, hys⟩, hyi⟩, (hexpr x y o).mpr hmid⟩

/-- The rows of an `InnermostOnly` query. -/
theorem mem_hasParentsQuery_innermostOnly (htypes : db.ForeignKeys) {v ids : List ℤ}
    {r : HasParentsRow} :
    r ∈ (hasParentsQuery db (.leaf .innermostOnly) ids (.combined v)).rows ↔
      ∃ x y, Contains db (.combined v) x y ∧ y.1.1.id ∈ ids ∧
        (∀ m, ¬ Between db (.combined v) x y m) ∧ hasParentsRow x y = r := by
  obtain ⟨e, he⟩ : ∃ e, FilterLeaf.hasParentsExpr db (.combined v) .innermostOnly = some e :=
    ⟨_, rfl⟩
  have hexpr : ∀ x y, e (hasParentsRow x y) = true ↔
      ∀ m, ¬ Between db (.combined v) x y m := by
    intro x y
    rw [← hasParentsExpr_innermostOnly_iff htypes, he]
    simp
  simp only [hasParentsQuery, buildHasParentsQuery, CompositeFilter.composeHasParents,
    CompositeFilter.compose, he, Query.filterOpt, Query.rows_guard, Query.guardPasses,
    Query.rows_filter, Query.rows_pred, Query.rows_ofRows, List.mem_filter, mem_hasParentsRows,
    List.contains_iff_mem, decide_eq_true_eq, Bool.not_eq_true', beq_eq_false_iff_ne, and_true]
  constructor
  · rintro ⟨⟨⟨⟨⟨⟨⟨⟨⟨⟨x, hx, y, hy, hxy, rfl⟩, hid⟩, hrange⟩, hlevel⟩, hne⟩, hys⟩, hyi⟩, hxs⟩,
      hxi⟩, hmid⟩
    exact ⟨x, y, ⟨⟨hx, hxi, hxs⟩, ⟨hy, hyi, hys⟩, hxy.symm, hrange, hlevel, hne⟩, hid,
      (hexpr x y).mp hmid, rfl⟩
  · rintro ⟨x, y, h, hid, hmid, rfl⟩
    obtain ⟨hx, hxi, hxs⟩ := h.container
    obtain ⟨hy, hyi, hys⟩ := h.contained
    exact ⟨⟨⟨⟨⟨⟨⟨⟨⟨⟨x, hx, y, hy, h.object.symm, rfl⟩, hid⟩, h.range⟩, h.level⟩, h.ne⟩, hys⟩,
      hyi⟩, hxs⟩, hxi⟩, (hexpr x y).mpr hmid⟩

/-- What `find_child_instance_ids` returns for a parent, through containment and with
`DirectOnly`. -/
theorem findChildInstanceIds_directOnly (hkeys : db.ForeignKeys) (eph : EphContext) (p : ℤ) :
    ∃ ids, findChildInstanceIds db [p] false true (.leaf .directOnly) eph = .ok ids ∧
      ∀ c, c ∈ ids ↔ ∃ x y, Contains db (.combined eph.visibleIds) x y ∧ x.1.1.id = p ∧
        y.1.1.id = c ∧
        ∀ m, Between db (.combined eph.visibleIds) x y m → x.2.level < m.2.level := by
  have hload : selectHasChildren db (.leaf .directOnly) (canonicalIds [p]) eph =
      (hasChildrenQuery db (.leaf .directOnly) [p] (.combined eph.visibleIds)).rows := rfl
  have hlayers : ∀ l ∈ ((hasChildrenQuery db (.leaf .directOnly) [p]
      (.combined eph.visibleIds)).rows.flatMap fun r => [r.symbol.layer, r.symbolInstance.layer,
        r.containedSymbol.layer, r.containedInstance.layer]), l ∈ eph.visibleIds := by
    intro l hl
    obtain ⟨r, hr, hl⟩ := List.mem_flatMap.mp hl
    obtain ⟨x, y, o, h, -, -, -, -, rfl⟩ := mem_hasChildrenQuery_directOnly.mp hr
    obtain ⟨-, hxi, hxs⟩ := h.container
    obtain ⟨-, hyi, hys⟩ := h.contained
    simp only [VisibilitySpec.admits_iff, VisibilitySpec.visible] at hxi hxs hyi hys
    simp only [hasChildrenRow, List.mem_cons, List.not_mem_nil, or_false] at hl
    rcases hl with rfl | rfl | rfl | rfl
    · exact hxs
    · exact hxi
    · exact hys
    · exact hyi
  refine ⟨canonicalIds ((hasChildrenQuery db (.leaf .directOnly) [p]
    (.combined eph.visibleIds)).rows.map (·.containedInstance.id)), ?_, ?_⟩
  · simp only [findChildInstanceIds, if_true, Bool.false_eq_true, if_false, hload,
      checkLayers_ok hlayers, List.flatMap_nil, checkLayers_ok (List.forall_mem_nil _),
      List.map_nil, List.append_nil]
    rfl
  · intro c
    simp only [mem_canonicalIds, List.mem_map, mem_hasChildrenQuery_directOnly]
    constructor
    · rintro ⟨_, ⟨x, y, o, h, -, -, hid, hmid, rfl⟩, rfl⟩
      exact ⟨x, y, h, List.mem_singleton.mp hid, rfl, hmid⟩
    · rintro ⟨x, y, h, hid, rfl, hmid⟩
      have hx := ((mem_typedInstances db).mp h.container.mem).1
      obtain ⟨o, ho, hox⟩ := hkeys.objects x.1.1 hx
      exact ⟨_, ⟨x, y, o, h, ho, hox, List.mem_singleton.mpr hid, hmid, rfl⟩, rfl⟩

/-- What `find_parent_instance_ids` returns for a child, through containment and with
`InnermostOnly`. -/
theorem findParentInstanceIds_innermostOnly (hkeys : db.ForeignKeys) (eph : EphContext)
    (c : ℤ) :
    ∃ ids, findParentInstanceIds db [c] false true (.leaf .innermostOnly) eph = .ok ids ∧
      ∀ p, p ∈ ids ↔ ∃ x y, Contains db (.combined eph.visibleIds) x y ∧ x.1.1.id = p ∧
        y.1.1.id = c ∧ ∀ m, ¬ Between db (.combined eph.visibleIds) x y m := by
  have hload : cachedLoadPartitioned HasParentsRow.key eph
      (CompositeFilter.leaf .innermostOnly).isChainDependent
      (hasParentsQuery db (.leaf .innermostOnly) (canonicalIds [c])) =
      (hasParentsQuery db (.leaf .innermostOnly) [c] (.combined eph.visibleIds)).rows := rfl
  have hlayers : ∀ l ∈ ((hasParentsQuery db (.leaf .innermostOnly) [c]
      (.combined eph.visibleIds)).rows.flatMap fun r => [r.symbol.layer, r.symbolInstance.layer,
        r.containerSymbol.layer, r.containerInstance.layer]), l ∈ eph.visibleIds := by
    intro l hl
    obtain ⟨r, hr, hl⟩ := List.mem_flatMap.mp hl
    obtain ⟨x, y, h, -, -, rfl⟩ := (mem_hasParentsQuery_innermostOnly hkeys).mp hr
    obtain ⟨-, hxi, hxs⟩ := h.container
    obtain ⟨-, hyi, hys⟩ := h.contained
    simp only [VisibilitySpec.admits_iff, VisibilitySpec.visible] at hxi hxs hyi hys
    simp only [hasParentsRow, List.mem_cons, List.not_mem_nil, or_false] at hl
    rcases hl with rfl | rfl | rfl | rfl
    · exact hys
    · exact hyi
    · exact hxs
    · exact hxi
  refine ⟨canonicalIds ((hasParentsQuery db (.leaf .innermostOnly) [c]
    (.combined eph.visibleIds)).rows.map (·.containerInstance.id)), ?_, ?_⟩
  · simp only [findParentInstanceIds, if_true, Bool.false_eq_true, if_false, hload,
      checkLayers_ok hlayers, List.flatMap_nil, checkLayers_ok (List.forall_mem_nil _),
      List.map_nil, List.nil_append]
    rfl
  · intro p
    simp only [mem_canonicalIds, List.mem_map, mem_hasParentsQuery_innermostOnly hkeys]
    constructor
    · rintro ⟨_, ⟨x, y, h, hid, hmid, rfl⟩, rfl⟩
      exact ⟨x, y, h, rfl, List.mem_singleton.mp hid, hmid⟩
    · rintro ⟨x, y, h, rfl, hid, hmid⟩
      exact ⟨_, ⟨x, y, h, List.mem_singleton.mpr hid, hmid, rfl⟩, rfl⟩

/-- An instance that contains another with something between, all of it of a level the
container may not hold. -/
def OnlyHigherBetween (db : Database) (vis : VisibilitySpec) (p c : ℤ) : Prop :=
  ∃ x y, Contains db vis x y ∧ x.1.1.id = p ∧ y.1.1.id = c ∧
    (∃ m, Between db vis x y m) ∧ ∀ m, Between db vis x y m → x.2.level < m.2.level

/-- **An instance is a direct child of another exactly when that one is an innermost parent
of it, or when all that lies between the two is of a higher level than the container.** -/
theorem directChild_iff (db : Database) (hkeys : db.ForeignKeys) (eph : EphContext)
    (p c : ℤ) :
    ∃ children parents,
      findChildInstanceIds db [p] false true (.leaf .directOnly) eph = .ok children ∧
      findParentInstanceIds db [c] false true (.leaf .innermostOnly) eph = .ok parents ∧
      (c ∈ children ↔ p ∈ parents ∨ OnlyHigherBetween db (.combined eph.visibleIds) p c) := by
  obtain ⟨children, hchildren, hc⟩ := findChildInstanceIds_directOnly hkeys eph p
  obtain ⟨parents, hparents, hp⟩ := findParentInstanceIds_innermostOnly hkeys eph c
  refine ⟨children, parents, hchildren, hparents, ?_⟩
  rw [hc, hp]
  constructor
  · rintro ⟨x, y, h, hx, hy, hmid⟩
    by_cases hex : ∃ m, Between db (.combined eph.visibleIds) x y m
    · exact Or.inr ⟨x, y, h, hx, hy, hex, hmid⟩
    · exact Or.inl ⟨x, y, h, hx, hy, fun m hm => hex ⟨m, hm⟩⟩
  · rintro (⟨x, y, h, hx, hy, hmid⟩ | ⟨x, y, h, hx, hy, -, hmid⟩)
    · exact ⟨x, y, h, hx, hy, fun m hm => absurd hm (hmid m)⟩
    · exact ⟨x, y, h, hx, hy, hmid⟩

/-- A function `a` over a whole file, a file in it, and a function `b` in that. -/
def levelledDatabase : Database :=
  { Database.singleFile [.plain 1 ['a'], ⟨2, ['f'], [['f']], 1, 2, ['f'], 1⟩, .plain 3 ['b']]
      [.plain 1 1 0 10 (.refl true), .plain 2 2 2 8 (.refl true), .plain 3 3 4 6 (.refl true)] []
      (.refl true) (.refl true) (.refl true) with
    symbolTypes := [⟨1, 1⟩, ⟨2, 2⟩]
    symbolTypes_nodup := by decide }

/-- Nothing but a nested function is between `a` and `b` there. -/
theorem directChild_iff_nested : nestedDatabase.ForeignKeys ∧ ∃ children parents,
    findChildInstanceIds nestedDatabase [1] false true (.leaf .directOnly)
      (.rooted [⟨1, 1⟩]) = .ok children ∧
    findParentInstanceIds nestedDatabase [2] false true (.leaf .innermostOnly)
      (.rooted [⟨1, 1⟩]) = .ok parents ∧
    (2 ∈ children ↔ 1 ∈ parents ∨ OnlyHigherBetween nestedDatabase
      (.combined (EphContext.rooted [⟨1, 1⟩]).visibleIds) 1 2) := by
  have hkeys : nestedDatabase.ForeignKeys := ⟨by decide, by decide⟩
  exact ⟨hkeys, directChild_iff nestedDatabase hkeys (.rooted [⟨1, 1⟩]) 1 2⟩

/-- **With a file between two functions the inner one is a child of the outer one, which is
not its parent.** -/
theorem directChild_not_dual : levelledDatabase.ForeignKeys ∧
    findChildInstanceIds levelledDatabase [1] false true (.leaf .directOnly)
      (.rooted [⟨1, 1⟩]) = .ok [3] ∧
    findParentInstanceIds levelledDatabase [3] false true (.leaf .innermostOnly)
      (.rooted [⟨1, 1⟩]) = .ok [2] :=
  ⟨⟨by decide, by decide⟩, by decide +kernel, by decide +kernel⟩

end Askl
