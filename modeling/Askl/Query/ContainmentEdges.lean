import Askl.Library.Fallible
import Askl.Library.Keyed
import Askl.Query.FinalSelections
import Mathlib

/-!
# Containment edges of a result

The containments recorded in the selections are folded into a map that keeps one parent for
each contained instance, the one with the smallest span.  The span is a difference of 32-bit
integers, and is made a 64-bit one only afterwards: a parent of 2³¹ bytes or more has a
negative span, or none.

## Main definitions

* `RecordedHas`, `recordedHas` — the containments recorded in the selections.
* `parentSpan` — the span of a parent, as computed.
* `collectHasEdges` — one edge for each contained instance.
* `OffsetRange.span` — the span as it is.
* `HasEdgesRight` — what the edges must be.
* `SpansComparable` — the spans computed are ordered as the spans are.

## Main results

* `collectHasEdges_eq_ok` — the edges are the values of the map.
* `hasEdgesRight_of_comparable` — the edges are right where spans can be compared.
* `hasEdgesRight_iff` — **and nowhere else.**
-/

namespace Askl

open Entries

/-! ### The loop -/

/-- `HasEdge`. -/
structure HasEdge where
  parent : ℤ
  child : ℤ
  parentInstance : ℤ
  childInstance : ℤ
  deriving DecidableEq, Repr

/-- A recorded containment, from whichever side it was recorded. -/
structure RecordedHas where
  parentInst : Loaded.SymbolInstance
  childInst : Loaded.SymbolInstance
  parentSym : ℤ
  childSym : ℤ
  deriving DecidableEq

/-- The edge of a recorded containment. -/
def RecordedHas.edge (r : RecordedHas) : HasEdge where
  parent := r.parentSym
  child := r.childSym
  parentInstance := r.parentInst.id
  childInstance := r.childInst.id

/-- The containments recorded in a selection, `from_children` and then `from_parents`. -/
def Loaded.Selection.recordedHas (selection : Loaded.Selection) : List RecordedHas :=
  (selection.hasChildren.map fun h =>
      ⟨h.parentInstance, h.childInstance, h.parentSymbol.id, h.childSymbol.id⟩) ++
    selection.hasParents.map fun h =>
      ⟨h.parentInstance, h.childInstance, h.parentSymbol.id, h.childSymbol.id⟩

/-- The containments recorded in all selections. -/
def recordedHas (statements : List Loaded.Statement) : List RecordedHas :=
  (selections statements).flatMap (·.recordedHas)

/-- `e - s` on 32-bit integers: where it overflows, a build with overflow checks panics, and
one without them goes on from the other end. -/
def subI32 (overflowChecks : Bool) (e s : ℤ) : Except Panic ℤ :=
  if -2 ^ 31 ≤ e - s ∧ e - s < 2 ^ 31 then .ok (e - s)
  else if overflowChecks then .error .overflow
  else .ok (Int.bmod (e - s) (2 ^ 32))

/-- `parent_span`: the length of a range, the largest 64-bit integer if it is unbounded. -/
def parentSpan (overflowChecks : Bool) (range : OffsetRange) : Except Panic ℤ :=
  match range.offsets with
  | none => .ok (2 ^ 63 - 1)
  | some (s, e) => subI32 overflowChecks e s

/-- Both ends of a recorded containment are selected. -/
def RecordedHas.joins (all : List ℤ) (r : RecordedHas) : Bool :=
  all.contains r.parentInst.id && all.contains r.childInst.id

/-- The tightest parent of each instance so far, with its span. -/
abbrev BestPerChild := AList fun _ : ℤ => HasEdge × ℤ

/-- Enter a parent, or put it in the place of a looser one. -/
def keepTightest (best : BestPerChild) (entry : HasEdge × ℤ) : BestPerChild :=
  upsert best entry.1.childInstance
    (fun existing => if entry.2 < existing.2 then entry else existing) entry

/-- The body of the loop of `collect_has_edges`. -/
def collectHasEdge (overflowChecks : Bool) (all : List ℤ) (best : BestPerChild)
    (r : RecordedHas) : Except Panic BestPerChild :=
  if r.joins all then
    (parentSpan overflowChecks r.parentInst.offsetRange).map fun span =>
      keepTightest best (r.edge, span)
  else .ok best

/-- `collect_has_edges`; the list of the edges is a hash set, and is filled from a hash
table. -/
def collectHasEdges (overflowChecks : Bool) (order : HashOrder)
    (statements : List Loaded.Statement) (all : List ℤ) : Except Panic (List HasEdge) :=
  ((recordedHas statements).foldlM (collectHasEdge overflowChecks all) ∅).map fun best =>
    ((order.iter (values best)).map (·.1)).foldl (Keyed.insertNew id) []

/-! ### What the edges must be -/

/-- The span of a range, without bound if the range is unbounded. -/
def OffsetRange.span (range : OffsetRange) : WithTop ℤ :=
  match range.offsets with
  | none => ⊤
  | some (s, e) => ↑(e - s)

/-- The recorded containments both of whose instances are selected. -/
def joinedHas (statements : List Loaded.Statement) : List RecordedHas :=
  (recordedHas statements).filter (RecordedHas.joins (allNodes statements))

/-- The edges hold one edge for each selected instance that a recorded containment joins to a
selected parent, and none for others; the parent is one of those recorded for the instance,
and none of these has a smaller span. -/
structure HasEdgesRight (statements : List Loaded.Statement) (edges : List HasEdge) : Prop where
  unique : (edges.map (·.childInstance)).Nodup
  child_iff : ∀ id, (∃ e ∈ edges, e.childInstance = id) ↔
    ∃ r ∈ joinedHas statements, r.childInst.id = id
  tightest : ∀ e ∈ edges, ∃ r ∈ joinedHas statements, r.edge = e ∧
    ∀ r' ∈ joinedHas statements, r'.childInst.id = r.childInst.id →
      r.parentInst.offsetRange.span ≤ r'.parentInst.offsetRange.span

/-- The range has two bounds, less than 2³¹ apart. -/
def OffsetRange.Fits (range : OffsetRange) : Prop :=
  ∃ offsets, range.offsets = some offsets ∧ offsets.2 - offsets.1 < 2 ^ 31

/-- The range has two bounds, 2³¹ or more apart. -/
def OffsetRange.Exceeds (range : OffsetRange) : Prop :=
  ∃ offsets, range.offsets = some offsets ∧ 2 ^ 31 ≤ offsets.2 - offsets.1

/-- Where a difference that overflows is a panic, none does.  Where it wraps around, no
instance has both a parent whose span overflows and one with two bounds whose span does
not. -/
def SpansComparable (overflowChecks : Bool) (rs : List RecordedHas) : Prop :=
  if overflowChecks then ∀ r ∈ rs, ¬r.parentInst.offsetRange.Exceeds
  else ∀ r ∈ rs, ∀ r' ∈ rs, r.childInst.id = r'.childInst.id →
    r.parentInst.offsetRange.Fits → ¬r'.parentInst.offsetRange.Exceeds

/-- The statements at the end of a query.  A parent is a row of a table with a primary key:
two containments recorded with the id of one parent are recorded with one range. -/
structure FinishedStatements where
  statements : List Loaded.Statement
  range_eq : ∀ r ∈ recordedHas statements, ∀ r' ∈ recordedHas statements,
    r.parentInst.id = r'.parentInst.id → r.parentInst.offsetRange = r'.parentInst.offsetRange

/-! ### Spans -/

namespace OffsetRange

variable {range range' : OffsetRange} {overflowChecks : Bool} {span span' : ℤ}

/-- The spans computed of a range without two bounds, of one that fits and of one that does
not. -/
theorem parentSpan_cases (h : parentSpan overflowChecks range = .ok span) :
    (range.offsets = none ∧ span = 2 ^ 63 - 1) ∨
      (∃ s e, range.offsets = some (s, e) ∧ s ≤ e ∧ e - s < 2 ^ 31 ∧ span = e - s) ∨
      (overflowChecks = false ∧ ∃ s e, range.offsets = some (s, e) ∧ 2 ^ 31 ≤ e - s ∧
        e - s < 2 ^ 32 ∧ span = e - s - 2 ^ 32) := by
  unfold parentSpan at h
  split at h
  · next hnone => exact Or.inl ⟨hnone, (Except.ok.inj h).symm⟩
  · next s e hsome =>
    obtain ⟨hs, hle, he⟩ := range.ordered _ hsome
    unfold subI32 at h
    split at h
    · next hfits => exact Or.inr (Or.inl ⟨s, e, hsome, hle, hfits.2, (Except.ok.inj h).symm⟩)
    · next hexceeds =>
      split at h
      · cases h
      · next hchecks =>
        have hspan := Except.ok.inj h
        refine Or.inr (Or.inr ⟨by simpa using hchecks, s, e, hsome, ?_, ?_, ?_⟩)
        · simp only at hle
          omega
        · simp only at hs he
          omega
        · rw [← hspan, Int.bmod_def]
          simp only at hs hle he
          omega

/-- A span is computed unless it overflows where this is a panic. -/
theorem exists_parentSpan_iff :
    (∃ span, parentSpan overflowChecks range = .ok span) ↔
      (overflowChecks = true → ¬range.Exceeds) := by
  unfold parentSpan Exceeds
  cases hoffsets : range.offsets with
  | none => simp
  | some offsets =>
    obtain ⟨s, e⟩ := offsets
    obtain ⟨-, hle, -⟩ := range.ordered _ hoffsets
    simp only at hle
    unfold subI32
    by_cases hfits : e - s < 2 ^ 31
    · have hboth : -2 ^ 31 ≤ e - s ∧ e - s < 2 ^ 31 := ⟨by omega, hfits⟩
      simp only [if_pos hboth]
      simp
      omega
    · have hboth : ¬(-2 ^ 31 ≤ e - s ∧ e - s < 2 ^ 31) := fun h => hfits h.2
      simp only [if_neg hboth]
      cases overflowChecks
      · simp
      · simp
        omega

/-- The order of computed spans is that of the spans, unless a span that overflows is compared
with one that does not. -/
theorem span_le_of_parentSpan_le (h : parentSpan overflowChecks range = .ok span)
    (h' : parentSpan overflowChecks range' = .ok span') (hle : span ≤ span')
    (hcomparable : range'.Fits → ¬range.Exceeds) : range.span ≤ range'.span := by
  unfold OffsetRange.span
  rcases parentSpan_cases h' with ⟨hnone', -⟩ | ⟨s', e', hsome', -, hlt', rfl⟩ |
    ⟨-, s', e', hsome', -, hlt', rfl⟩
  · rw [hnone']
    exact le_top
  · rcases parentSpan_cases h with ⟨-, rfl⟩ | ⟨s, e, hsome, -, -, rfl⟩ |
      ⟨-, s, e, hsome, hge, -, rfl⟩
    · omega
    · rw [hsome, hsome']
      exact WithTop.coe_le_coe.mpr hle
    · exact absurd ⟨_, hsome, hge⟩ (hcomparable ⟨_, hsome', hlt'⟩)
  · rcases parentSpan_cases h with ⟨-, rfl⟩ | ⟨s, e, hsome, hnonneg, -, rfl⟩ |
      ⟨-, s, e, hsome, -, -, rfl⟩
    · omega
    · omega
    · rw [hsome, hsome']
      exact WithTop.coe_le_coe.mpr (by omega)

/-- A computed span that is not above one that has wrapped around has wrapped around. -/
theorem exceeds_of_parentSpan_le (h : parentSpan overflowChecks range = .ok span)
    (h' : parentSpan overflowChecks range' = .ok span') (hle : span ≤ span')
    (hexceeds : range'.Exceeds) : range.Exceeds := by
  obtain ⟨offsets', hsome', hge'⟩ := hexceeds
  have hneg : span' < 0 := by
    rcases parentSpan_cases h' with ⟨hnone, -⟩ | ⟨s, e, hsome, -, hlt, -⟩ |
      ⟨-, s, e, hsome, -, hlt, rfl⟩
    · rw [hnone] at hsome'
      cases hsome'
    · rw [hsome] at hsome'
      obtain rfl := Option.some.inj hsome'
      simp only at hge'
      omega
    · omega
  rcases parentSpan_cases h with ⟨-, rfl⟩ | ⟨s, e, -, hnonneg, -, rfl⟩ |
    ⟨-, s, e, hsome, hge, -, -⟩
  · omega
  · omega
  · exact ⟨_, hsome, hge⟩

end OffsetRange

/-! ### The map -/

section Map

variable {overflowChecks : Bool} {order : HashOrder} {statements : List Loaded.Statement}
  {all : List ℤ} {edges : List HasEdge}

/-- What is computed of a containment: its edge, with the span of the parent. -/
def spanned (overflowChecks : Bool) (r : RecordedHas) : Except Panic (HasEdge × ℤ) :=
  (parentSpan overflowChecks r.parentInst.offsetRange).map fun span => (r.edge, span)

theorem spanned_eq_ok {r : RecordedHas} {entry : HasEdge × ℤ} :
    spanned overflowChecks r = .ok entry ↔
      parentSpan overflowChecks r.parentInst.offsetRange = .ok entry.2 ∧ r.edge = entry.1 := by
  rw [spanned, Fallible.map_eq_ok]
  constructor
  · rintro ⟨span, hspan, rfl⟩
    exact ⟨hspan, rfl⟩
  · rintro ⟨hspan, hedge⟩
    exact ⟨entry.2, hspan, by rw [hedge]⟩

/-- The loop fills the map with what is computed of the containments that join selected
instances. -/
theorem foldlM_collectHasEdge (rs : List RecordedHas) :
    rs.foldlM (collectHasEdge overflowChecks all) ∅ =
      ((rs.filter (RecordedHas.joins all)).mapM (spanned overflowChecks)).map fun entries =>
        entries.foldl keepTightest ∅ := by
  refine Fallible.foldlM_eq_mapM (fun best r => ?_) rs ∅
  unfold collectHasEdge spanned
  split
  · cases parentSpan overflowChecks r.parentInst.offsetRange <;> rfl
  · rfl

/-- An instance holds one of the entries of least span among its own. -/
theorem lookup_keepTightest {entries : List (HasEdge × ℤ)} {id : ℤ} {entry : HasEdge × ℤ}
    (h : (entries.foldl keepTightest ∅).lookup id = some entry) :
    entry ∈ entries ∧ entry.1.childInstance = id ∧
      ∀ entry' ∈ entries, entry'.1.childInstance = id → entry.2 ≤ entry'.2 := by
  obtain ⟨⟨_, hmem, hkey, rfl⟩, hle⟩ :=
    lookup_collect_least (fun entry : HasEdge × ℤ => entry.1.childInstance)
      (fun entry => entry) Prod.snd h
  exact ⟨hmem, hkey, hle⟩

/-- The edges are the values of the map. -/
theorem collectHasEdges_eq_ok
    (h : collectHasEdges overflowChecks order statements all = .ok edges) :
    ∃ entries, ((recordedHas statements).filter (RecordedHas.joins all)).mapM
        (spanned overflowChecks) = .ok entries ∧
      (edges.map (·.childInstance)).Nodup ∧
      ∀ e, e ∈ edges ↔ ∃ span, (entries.foldl keepTightest ∅).lookup e.childInstance =
        some (e, span) := by
  rw [collectHasEdges, foldlM_collectHasEdge] at h
  obtain ⟨best, hbest, rfl⟩ := Fallible.map_eq_ok.mp h
  obtain ⟨entries, hentries, rfl⟩ := Fallible.map_eq_ok.mp hbest
  have hkeys : ((values (entries.foldl keepTightest ∅)).map (·.1.childInstance)).Nodup :=
    nodup_values fun id entry hentry => (lookup_keepTightest hentry).2.1
  have hperm := order.perm (values (entries.foldl keepTightest ∅))
  have hnodup : ((order.iter (values (entries.foldl keepTightest ∅))).map
      (·.1.childInstance)).Nodup := (hperm.map _).nodup_iff.mpr hkeys
  have hset : ((order.iter (values (entries.foldl keepTightest ∅))).map (·.1)).foldl
      (Keyed.insertNew id) [] =
        (order.iter (values (entries.foldl keepTightest ∅))).map (·.1) := by
    refine Keyed.foldl_insertNew_eq ?_
    rw [List.nil_append, List.map_id]
    refine List.Nodup.of_map (·.childInstance) ?_
    rwa [List.map_map]
  refine ⟨entries, hentries, ?_, fun e => ?_⟩
  · rw [hset, List.map_map]
    exact hnodup
  · rw [hset, List.mem_map]
    constructor
    · rintro ⟨entry, hentry, rfl⟩
      obtain ⟨id, hid⟩ := mem_values.mp (hperm.mem_iff.mp hentry)
      obtain ⟨-, rfl, -⟩ := lookup_keepTightest hid
      exact ⟨entry.2, hid⟩
    · rintro ⟨span, hspan⟩
      exact ⟨(e, span), hperm.mem_iff.mpr (mem_values.mpr ⟨_, hspan⟩), rfl⟩

end Map

/-! ### The edges -/

variable {overflowChecks : Bool} {statements : List Loaded.Statement} {edges : List HasEdge}

/-- Where spans can be compared, a span is computed of every parent. -/
theorem exists_mapM_spanned {rs : List RecordedHas} (h : SpansComparable overflowChecks rs) :
    ∃ entries, rs.mapM (spanned overflowChecks) = .ok entries := by
  refine Fallible.exists_mapM fun r hr => ?_
  obtain ⟨span, hspan⟩ := OffsetRange.exists_parentSpan_iff.mpr fun hchecks => by
    rw [SpansComparable, if_pos hchecks] at h
    exact h r hr
  exact ⟨(r.edge, span), spanned_eq_ok.mpr ⟨hspan, rfl⟩⟩

/-- Spans that can be compared can be compared among the parents of an instance. -/
theorem SpansComparable.not_exceeds {rs : List RecordedHas}
    (h : SpansComparable overflowChecks rs) {r r' : RecordedHas} (hr : r ∈ rs) (hr' : r' ∈ rs)
    (hchild : r.childInst.id = r'.childInst.id) (hfits : r.parentInst.offsetRange.Fits) :
    ¬r'.parentInst.offsetRange.Exceeds := by
  unfold SpansComparable at h
  split at h
  · exact h r' hr'
  · exact h r hr r' hr' hchild hfits

/-- The edges, whatever their parents are: one for each joined instance, of an entry that is
least among those computed for the instance. -/
theorem mem_collectHasEdges {order : HashOrder}
    (h : collectHasEdges overflowChecks order statements (allNodes statements) = .ok edges) :
    (edges.map (·.childInstance)).Nodup ∧
      (∀ id, (∃ e ∈ edges, e.childInstance = id) ↔
        ∃ r ∈ joinedHas statements, r.childInst.id = id) ∧
      ∀ e ∈ edges, ∃ r ∈ joinedHas statements, r.edge = e ∧
        ∃ span, parentSpan overflowChecks r.parentInst.offsetRange = .ok span ∧
          ∀ r' ∈ joinedHas statements, r'.childInst.id = r.childInst.id →
            ∃ span', parentSpan overflowChecks r'.parentInst.offsetRange = .ok span' ∧
              span ≤ span' := by
  obtain ⟨entries, hentries, hunique, hmem⟩ := collectHasEdges_eq_ok h
  refine ⟨hunique, fun id => ⟨?_, ?_⟩, fun e he => ?_⟩
  · rintro ⟨e, he, rfl⟩
    obtain ⟨span, hspan⟩ := (hmem e).mp he
    obtain ⟨r, hr, hspanned⟩ :=
      Fallible.exists_of_mem_mapM hentries (lookup_keepTightest hspan).1
    obtain ⟨-, rfl⟩ := spanned_eq_ok.mp hspanned
    exact ⟨r, hr, rfl⟩
  · rintro ⟨r, hr, rfl⟩
    obtain ⟨entry, hentry, hspanned⟩ := Fallible.exists_mem_mapM hentries hr
    have hchild : entry.1.childInstance = r.childInst.id := by
      rw [← (spanned_eq_ok.mp hspanned).2]
      rfl
    have hin : r.childInst.id ∈ entries.foldl keepTightest ∅ :=
      mem_collect.mpr ⟨entry, hentry, hchild⟩
    obtain ⟨best, hbest⟩ := Option.isSome_iff_exists.mp (AList.lookup_isSome.mpr hin)
    have hkey := (lookup_keepTightest hbest).2.1
    exact ⟨best.1, (hmem best.1).mpr ⟨best.2, hkey ▸ hbest⟩, hkey⟩
  · obtain ⟨span, hspan⟩ := (hmem e).mp he
    obtain ⟨hentry, -, hleast⟩ := lookup_keepTightest hspan
    obtain ⟨r, hr, hspanned⟩ := Fallible.exists_of_mem_mapM hentries hentry
    obtain ⟨hparent, hedge⟩ := spanned_eq_ok.mp hspanned
    refine ⟨r, hr, hedge, span, hparent, fun r' hr' hchild => ?_⟩
    obtain ⟨entry', hentry', hspanned'⟩ := Fallible.exists_mem_mapM hentries hr'
    obtain ⟨hparent', hedge'⟩ := spanned_eq_ok.mp hspanned'
    refine ⟨entry'.2, hparent', hleast entry' hentry' ?_⟩
    obtain rfl : r.edge = e := hedge
    rw [← hedge']
    exact hchild

/-- **Where spans can be compared, the edges are right.** -/
theorem hasEdgesRight_of_comparable (order : HashOrder)
    (h : SpansComparable overflowChecks (joinedHas statements)) :
    ∃ edges, collectHasEdges overflowChecks order statements (allNodes statements) = .ok edges ∧
      HasEdgesRight statements edges := by
  obtain ⟨entries, hentries⟩ := exists_mapM_spanned h
  obtain ⟨edges, hedges⟩ : ∃ edges,
      collectHasEdges overflowChecks order statements (allNodes statements) = .ok edges := by
    rw [collectHasEdges, foldlM_collectHasEdge, ← joinedHas, hentries]
    exact ⟨_, rfl⟩
  obtain ⟨hunique, hchild, hleast⟩ := mem_collectHasEdges hedges
  refine ⟨edges, hedges, hunique, hchild, fun e he => ?_⟩
  obtain ⟨r, hr, hedge, span, hspan, hle⟩ := hleast e he
  refine ⟨r, hr, hedge, fun r' hr' hsame => ?_⟩
  obtain ⟨span', hspan', hle⟩ := hle r' hr' hsame
  exact OffsetRange.span_le_of_parentSpan_le hspan hspan' hle (h.not_exceeds hr' hr hsame)

/-- Where the edges are right, spans can be compared. -/
theorem comparable_of_hasEdgesRight (q : FinishedStatements) {order : HashOrder}
    (hedges : collectHasEdges overflowChecks order q.statements (allNodes q.statements) =
      .ok edges) (hright : HasEdgesRight q.statements edges) :
    SpansComparable overflowChecks (joinedHas q.statements) := by
  obtain ⟨-, hchild, hleast⟩ := mem_collectHasEdges hedges
  obtain ⟨entries, hentries, -⟩ := collectHasEdges_eq_ok hedges
  unfold SpansComparable
  split
  · next hchecks =>
    intro r hr
    obtain ⟨entry, -, hspanned⟩ := Fallible.exists_mem_mapM hentries hr
    exact OffsetRange.exists_parentSpan_iff.mp ⟨_, (spanned_eq_ok.mp hspanned).1⟩ hchecks
  · -- the parent that is kept overflows with the other, and then it is not a least one
    intro r₁ hr₁ r₂ hr₂ hsame hfits hexceeds
    obtain ⟨e, he, hid⟩ := (hchild r₂.childInst.id).mpr ⟨r₂, hr₂, rfl⟩
    obtain ⟨r, hr, hedge, span, hspan, hle⟩ := hleast e he
    obtain ⟨r', hr', hedge', htight⟩ := hright.tightest e he
    have hrid : r.childInst.id = r₂.childInst.id := by rw [← hid, ← hedge]; rfl
    have hrid' : r'.childInst.id = r₂.childInst.id := by rw [← hid, ← hedge']; rfl
    obtain ⟨span₂, hspan₂, hle⟩ := hle r₂ hr₂ hrid.symm
    have hkept := OffsetRange.exceeds_of_parentSpan_le hspan hspan₂ hle hexceeds
    have hparent : r.parentInst.id = r'.parentInst.id := by
      have := hedge.trans hedge'.symm
      exact congrArg HasEdge.parentInstance this
    rw [q.range_eq r (List.mem_filter.mp hr).1 r' (List.mem_filter.mp hr').1 hparent] at hkept
    obtain ⟨offsets, hoffsets, hge⟩ := hkept
    obtain ⟨offsets₁, hoffsets₁, hlt⟩ := hfits
    have hspans := htight r₁ hr₁ (hsame.trans hrid'.symm)
    rw [OffsetRange.span, OffsetRange.span, hoffsets, hoffsets₁] at hspans
    have := WithTop.coe_le_coe.mp hspans
    omega

/-- **The edges are right exactly where spans can be compared.** -/
theorem hasEdgesRight_iff (q : FinishedStatements) (overflowChecks : Bool) (order : HashOrder) :
    (∃ edges, collectHasEdges overflowChecks order q.statements (allNodes q.statements) =
        .ok edges ∧ HasEdgesRight q.statements edges) ↔
      SpansComparable overflowChecks (joinedHas q.statements) := by
  constructor
  · rintro ⟨edges, hedges, hright⟩
    exact comparable_of_hasEdgesRight q hedges hright
  · exact hasEdgesRight_of_comparable order

/-! ### A parent of 2³¹ bytes and more -/

/-- An instance of a range. -/
def instanceBetween (id start stop : ℤ) (hstart : -2 ^ 31 ≤ start) (h : start ≤ stop)
    (hstop : stop < 2 ^ 31) : Loaded.SymbolInstance :=
  ⟨id, id, 1, .between start stop hstart h hstop, 1⟩

/-- An instance of 2³¹ + 50 bytes, which ends in the middle of the next one. -/
def wideInstance : Loaded.SymbolInstance :=
  instanceBetween 1 (-2 ^ 31) 50 (by decide) (by decide) (by decide)

/-- An instance of 100 bytes. -/
def outerInstance : Loaded.SymbolInstance :=
  instanceBetween 2 0 100 (by decide) (by decide) (by decide)

/-- An instance of 10 bytes. -/
def innerInstance : Loaded.SymbolInstance :=
  instanceBetween 3 10 20 (by decide) (by decide) (by decide)

/-- A node of a project with one file. -/
def Loaded.SelectionNode.plain (i : Loaded.SymbolInstance) (name : Text) :
    Loaded.SelectionNode :=
  ⟨Symbol.plain i.symbol name, i, ⟨1, 1, ['/', 'f'], 1⟩, []⟩

/-- A selection of the three, in which the third is recorded as contained in both others. -/
def wideParent : FinishedStatements where
  statements := [⟨⟨0, 1, ['q']⟩, some
    { nodes := [.plain wideInstance ['w'], .plain outerInstance ['o'],
        .plain innerInstance ['i']]
      parents := []
      children := []
      hasParents :=
        [⟨Symbol.plain 3 ['i'], innerInstance, Symbol.plain 2 ['o'], outerInstance⟩,
          ⟨Symbol.plain 3 ['i'], innerInstance, Symbol.plain 1 ['w'], wideInstance⟩]
      hasChildren := [] }⟩]
  range_eq := by decide

/-- A build with overflow checks panics, and one without them keeps the wider parent. -/
theorem not_hasEdgesRight_wide :
    ¬(∃ edges, collectHasEdges true ⟨id, fun _ => .refl _⟩ wideParent.statements
        (allNodes wideParent.statements) = .ok edges ∧
        HasEdgesRight wideParent.statements edges) ∧
      ¬∃ edges, collectHasEdges false ⟨id, fun _ => .refl _⟩ wideParent.statements
        (allNodes wideParent.statements) = .ok edges ∧
        HasEdgesRight wideParent.statements edges := by
  have houter : ⟨outerInstance, innerInstance, 2, 3⟩ ∈ joinedHas wideParent.statements := by
    decide
  have hwide : ⟨wideInstance, innerInstance, 1, 3⟩ ∈ joinedHas wideParent.statements := by
    decide
  have hexceeds : wideInstance.offsetRange.Exceeds := ⟨_, rfl, by decide⟩
  constructor
  · rintro ⟨edges, hedges, hright⟩
    exact comparable_of_hasEdgesRight wideParent hedges hright _ hwide hexceeds
  · rintro ⟨edges, hedges, hright⟩
    exact comparable_of_hasEdgesRight wideParent hedges hright _ houter _ hwide rfl
      ⟨_, rfl, by decide⟩ hexceeds

end Askl
