import Askl.Query.NameFilters

/-!
# Compound names

A compound name is looked for as an lquery whose tokens may have any labels between them, and
a list of tokens is looked for in another by a scan that takes the first one that fits.  Both
decide whether the tokens are a subsequence.

## Main definitions

* `isOrderedSubset` — the scan.
* `Occurs` — what both must decide: the tokens in order, and at the end when they are anchored.

## Main results

* `isOrderedSubset_iff` — the first label that fits is always a good one.
* `lqueryMatches_anchored_iff` — the last token of an anchored name is the last label.
* `buildLquery_matches_iff` — the lquery of a name matches the paths its tokens occur in.
-/

namespace Askl

/-! ### The scan -/

section Scan

variable {α : Type*} [DecidableEq α]

/-- The loop of `is_ordered_subset`: what is left of the subset when one of the two is at its
end. -/
def orderedSubsetRest : List α → List α → List α
  | [], subset => subset
  | _ :: _, [] => []
  | x :: superset, y :: subset =>
    if y = x then orderedSubsetRest superset subset else orderedSubsetRest superset (y :: subset)

/-- `is_ordered_subset`. -/
def isOrderedSubset (superset subset : List α) : Bool :=
  if subset.isEmpty then true
  else if superset.length < subset.length then false
  else (orderedSubsetRest superset subset).isEmpty

/-- Nothing is left exactly when the subset is a subsequence. -/
theorem orderedSubsetRest_eq_nil_iff {superset subset : List α} :
    orderedSubsetRest superset subset = [] ↔ subset.Sublist superset := by
  induction superset generalizing subset with
  | nil => exact List.sublist_nil.symm
  | cons x superset ih =>
    cases subset with
    | nil => exact ⟨fun _ => List.nil_sublist _, fun _ => rfl⟩
    | cons y subset =>
      rw [orderedSubsetRest]
      split
      · next hxy =>
        -- taking the first label that fits loses nothing
        rw [ih, hxy, List.cons_sublist_cons]
      · next hxy =>
        rw [ih]
        exact ⟨fun h => h.cons x, fun h => h.of_cons_of_ne hxy⟩

/-- **The scan decides whether a list is a subsequence.** -/
theorem isOrderedSubset_iff {superset subset : List α} :
    isOrderedSubset superset subset = true ↔ subset.Sublist superset := by
  rw [isOrderedSubset]
  split
  · next hempty =>
    rw [List.isEmpty_iff.mp hempty]
    exact ⟨fun _ => List.nil_sublist _, fun _ => rfl⟩
  · split
    · next hlength =>
      refine ⟨fun h => absurd h Bool.false_ne_true, fun h => ?_⟩
      have := h.length_le
      omega
    · rw [List.isEmpty_iff, orderedSubsetRest_eq_nil_iff]

end Scan

/-! ### The lquery -/

/-- The tokens of a name occur in a path: in order, with gaps, and if they are anchored the
last of them at the end of the path. -/
def Occurs (anchorLeaf : Bool) (tokens : List Text) (path : Ltree) : Prop :=
  tokens.Sublist path ∧ (anchorLeaf = true → tokens.getLast? = path.getLast?)

/-- The last token of an anchored name is met at the last label. -/
theorem getLast?_of_lqueryMatches : ∀ {tokens : List Text} {path : Ltree}, tokens ≠ [] →
    lqueryMatches (.any :: lqueryParts true tokens) path = true →
      tokens.getLast? = path.getLast?
  | [t], path, _, h => by
    obtain ⟨s, ⟨before, rfl⟩, hmatch⟩ := lqueryMatches_any.mp h
    obtain ⟨rest, rfl, hrest⟩ := lqueryMatches_label.mp hmatch
    have hnil : rest = [] := by
      cases rest with
      | nil => rfl
      | cons l rest => cases hrest
    rw [hnil, List.getLast?_append_of_ne_nil _ (List.cons_ne_nil t [])]
  | t :: t' :: tokens, path, _, h => by
    obtain ⟨s, ⟨before, rfl⟩, hmatch⟩ := lqueryMatches_any.mp h
    obtain ⟨rest, rfl, hrest⟩ := lqueryMatches_label.mp hmatch
    have hlast := getLast?_of_lqueryMatches (List.cons_ne_nil t' tokens) hrest
    have hne : rest ≠ [] := by
      rintro rfl
      exact absurd hlast (by simp)
    rw [List.getLast?_append_of_ne_nil _ (List.cons_ne_nil t rest), List.getLast?_cons_cons, hlast]
    exact (List.getLast?_append_of_ne_nil [t] hne).symm

/-- The last label of a path matches its token. -/
theorem lqueryMatches_singleton {t : Text} {path : Ltree} (h : path.getLast? = some t) :
    lqueryMatches (.any :: lqueryParts true [t]) path = true := by
  obtain ⟨before, rfl⟩ := List.getLast?_eq_some_iff.mp h
  exact lqueryMatches_any.mpr ⟨[t], List.suffix_append before [t],
    lqueryMatches_label.mpr ⟨[], rfl, rfl⟩⟩

/-- **An anchored name matches the paths its tokens are a subsequence of, the last of them at
the end.** -/
theorem lqueryMatches_anchored_iff {tokens : List Text} {path : Ltree} (hne : tokens ≠ []) :
    lqueryMatches (.any :: lqueryParts true tokens) path = true ↔
      tokens.Sublist path ∧ tokens.getLast? = path.getLast? := by
  refine ⟨fun h => ⟨sublist_of_lqueryMatches h, getLast?_of_lqueryMatches hne h⟩, ?_⟩
  rintro ⟨hsub, hlast⟩
  induction hsub with
  | slnil => exact absurd rfl hne
  | @cons tokens path l hsub ih =>
    have hpath : path ≠ [] := by
      rintro rfl
      exact hne (List.sublist_nil.mp hsub)
    rw [← List.singleton_append, List.getLast?_append_of_ne_nil [l] hpath] at hlast
    exact lqueryMatches_of_suffix (List.suffix_cons l path) (ih hne hlast)
  | @cons_cons tokens path l hsub ih =>
    cases tokens with
    | nil => exact lqueryMatches_singleton hlast.symm
    | cons t tokens =>
      have hpath : path ≠ [] := by
        rintro rfl
        cases hsub
      rw [List.getLast?_cons_cons, ← List.singleton_append (l := path),
        List.getLast?_append_of_ne_nil [l] hpath] at hlast
      exact lqueryMatches_any.mpr ⟨_, List.suffix_refl _,
        lqueryMatches_label.mpr ⟨path, rfl, ih (List.cons_ne_nil t tokens) hlast⟩⟩

/-! ### Names -/

/-- What the two tests must decide: the lquery of a name, which there is when the name has
tokens, whether the tokens occur in a path, and the scan whether any tokens do. -/
structure CompoundNameRight (name : Text) (anchorLeaf dotIsSeparator : Bool) (path : Ltree) :
    Prop where
  lquery : ∀ q, buildLquery name anchorLeaf dotIsSeparator = some q →
    (lqueryMatches q path = true ↔ Occurs anchorLeaf (nameTokens dotIsSeparator name) path)
  none : buildLquery name anchorLeaf dotIsSeparator = none ↔ nameTokens dotIsSeparator name = []
  scan : ∀ tokens : List Text, isOrderedSubset path tokens = true ↔ Occurs false tokens path

/-- **The lquery of a name matches the paths its tokens occur in, and the scan finds them.** -/
theorem compoundNameRight (name : Text) (anchorLeaf dotIsSeparator : Bool) (path : Ltree) :
    CompoundNameRight name anchorLeaf dotIsSeparator path where
  lquery := by
    intro q hq
    by_cases htokens : nameTokens dotIsSeparator name = []
    · rw [buildLquery_of_eq_nil htokens] at hq
      cases hq
    · rw [buildLquery_of_ne_nil htokens] at hq
      obtain rfl := Option.some.inj hq
      cases anchorLeaf with
      | true => simp only [Occurs, forall_const, lqueryMatches_anchored_iff htokens]
      | false => simp only [Occurs, Bool.false_eq_true, false_implies, and_true,
          lqueryMatches_lqueryParts_iff htokens]
  none := by
    refine ⟨fun h => ?_, buildLquery_of_eq_nil⟩
    by_contra htokens
    rw [buildLquery_of_ne_nil htokens] at h
    cases h
  scan := by
    intro tokens
    rw [isOrderedSubset_iff, Occurs]
    exact ⟨fun h => ⟨h, fun h' => absurd h' Bool.false_ne_true⟩, fun h => h.1⟩

end Askl
