import Askl.Index.Filters
import Mathlib.Data.List.FinRange
import Mathlib.Data.Fin.Basic
import Mathlib.Data.Fintype.Card
import Mathlib.Data.Fintype.Basic
import Mathlib.Tactic.Ring
import Mathlib.Data.List.Pairwise

/-!
# Statements, commands and verbs

What the parser hands to the executor: a tree of statements, each with a command, a
list of verbs.  A selector verb owns an entry of the selector registry, found by the
verb's identity; the inherited unit verb is the one selector that several statements
may share.

## Main definitions

* `RelationshipType` — which of the two relationships a statement follows.
* `VerbKind`, `Verb`, `Command` — the verbs and what the executor asks them.
* `StatementTree` — the statements in visiting order, with their parents.
* `StatementTree.children`, `StatementTree.labeledStatements` — derived relations.
* `markWeakStatements`, `shouldSkipInParentMerge` — the weak statements.

## Main results

* `markWeakStatements_fixed` — the passes of the weak marking reach a fixed point.
* `allDescendantsWeak_iff` — the recursion over the descendants, unfolded once.
-/

namespace Askl

/-! ### Verbs -/

/-- The identity of a selector: the address of its verb. -/
abbrev SelectorId := ℕ

/-- A range of the query text. -/
structure Span where
  start : ℕ
  stop : ℕ
  deriving DecidableEq, Repr

/-- The relationships a statement follows to its parent: references, containment, both
or none. -/
structure RelationshipType where
  refs : Bool
  has : Bool
  deriving DecidableEq, Repr

/-- The verbs, with what their constructors compile.  The selectors come first; the
layer verbs `search`, `loc` and `layer` differ in how their layer is filled, and only
`search` caps its matches. -/
inductive VerbKind where
  | name (nameFilter : CompositeFilter) (token : Option Text)
  | select
  | type (filter : CompositeFilter) (filterOnly named inherit : Bool) (token : Option Text)
  | forced (nameFilter : CompositeFilter)
  | use (label : Text) (forced : Bool)
  | unit
  | isolatedScope
  | layer (labelRefs : List Text) (capped : Bool)
  | filter (composite : Option CompositeFilter) (namesSymbol : Bool)
  | label (label : Text)
  | modifier

namespace VerbKind

/-- `as_selector`: an inherited type filter without a name is not a selector. -/
def isSelector : VerbKind → Bool
  | type _ filterOnly named inherit _ => !(filterOnly && !named && inherit)
  | filter _ _ => false
  | label _ => false
  | modifier => false
  | _ => true

/-- `is_unit`. -/
def isUnit : VerbKind → Bool
  | unit => true
  | _ => false

/-- `is_non_constraining_selector`: unit verbs and nameless type filters. -/
def isNonConstraining : VerbKind → Bool
  | unit => true
  | type _ filterOnly named _ _ => filterOnly && !named
  | _ => false

/-- `has_layer_spec`. -/
def hasLayerSpec : VerbKind → Bool
  | layer .. => true
  | _ => false

/-- `layer_label_refs`. -/
def layerLabelRefs : VerbKind → List Text
  | layer refs _ => refs
  | _ => []

/-- Whether `make_truncation_warning` gives a warning. -/
def isCapped : VerbKind → Bool
  | layer _ capped => capped
  | _ => false

/-- `requires_name_constraint`. -/
def requiresNameConstraint : VerbKind → Bool
  | select => true
  | _ => false

/-- `has_name_constraint`. -/
def hasNameConstraint : VerbKind → Bool
  | filter _ namesSymbol => namesSymbol
  | _ => false

/-- The label and the `forced` flag of a use verb. -/
def asUse : VerbKind → Option (Text × Bool)
  | use l isForced => some (l, isForced)
  | _ => none

/-- `Selector::get_label`: the label a use verb looks up. -/
def useLabel (k : VerbKind) : Option Text := k.asUse.map (·.1)

/-- Whether the verb is a forced verb, `!"x"`. -/
def isForced : VerbKind → Bool
  | forced _ => true
  | _ => false

/-- `Labeler::get_label`: the label a label verb attaches. -/
def labelerLabel : VerbKind → Option Text
  | label l => some l
  | _ => none

/-- Whether the verb is a use with `forced="true"`. -/
def isForcedUse (k : VerbKind) : Bool := match k.asUse with
  | some (_, isForced) => isForced
  | none => false

/-- `as_filter` and `get_composite_filter`: type selectors filter too. -/
def compositeFilter : VerbKind → Option CompositeFilter
  | type f _ _ _ _ => some f
  | filter f _ => f
  | _ => none

/-- `matched_token`: the plain name a no-match diagnostic suggests against. -/
def matchedToken : VerbKind → Option Text
  | name _ token => token
  | type _ _ _ _ token => token
  | _ => none

end VerbKind

/-- A verb of a command. -/
structure Verb where
  id : SelectorId
  span : Span
  kind : VerbKind

/-- The verbs of one statement. -/
structure Command where
  verbs : List Verb
  span : Span

namespace Command

/-- The selector verbs, in source order. -/
def selectors (c : Command) : List Verb := c.verbs.filter (·.kind.isSelector)

/-- The composite filters of the filter verbs. -/
def filterParts (c : Command) : List CompositeFilter :=
  c.verbs.filterMap (·.kind.compositeFilter)

/-- `has_layer_spec`. -/
def hasLayerSpec (c : Command) : Bool := c.selectors.any (·.kind.hasLayerSpec)

/-- `is_unit`. -/
def isUnit (c : Command) : Bool := c.selectors.all (·.kind.isUnit)

/-- `is_non_constraining`. -/
def isNonConstraining (c : Command) : Bool := c.selectors.all (·.kind.isNonConstraining)

/-- `get_labels`. -/
def labels (c : Command) : List Text := c.verbs.filterMap (·.kind.labelerLabel)

/-- `layer_label_refs`. -/
def layerLabelRefs (c : Command) : List Text := c.selectors.flatMap (·.kind.layerLabelRefs)

/-- `Selector::build_composite_filter`: named selectors scope by the filters and their
name, type and generic selectors by the filters, the others not at all. -/
def buildCompositeFilter (c : Command) (v : Verb) : Option CompositeFilter :=
  match v.kind with
  | .name f _ => some (.mkAnd (c.filterParts ++ [f]))
  | .forced f => some (.mkAnd (c.filterParts ++ [f]))
  | .type .. => if c.filterParts.isEmpty then none else some (.mkAnd c.filterParts)
  | .select => if c.filterParts.isEmpty then none else some (.mkAnd c.filterParts)
  | _ => none

/-- `get_selector_composite_filter`: the selectors' filters, or-ed. -/
def selectorCompositeFilter (c : Command) : Option CompositeFilter :=
  match c.selectors.filterMap c.buildCompositeFilter with
  | [] => none
  | fs => some (.mkOr fs)

end Command

/-! ### Numbers of statements -/

/-- A shortcut for the searches in lists of statements. -/
instance lawfulBEq_fin {n : ℕ} : LawfulBEq (Fin n) := inferInstance

/-- The first statement of a small tree. -/
instance neZero_two : NeZero 2 := ⟨Nat.succ_ne_zero 1⟩

instance neZero_three : NeZero 3 := ⟨Nat.succ_ne_zero 2⟩

instance neZero_four : NeZero 4 := ⟨Nat.succ_ne_zero 3⟩

/-! ### Trees -/

/-- The statements of a query, in visiting order.  A parent is visited before its
children, the children of one scope share the relationship type their parser context
hands down, and every command has a selector, the parser adding a unit verb where none
is written. -/
structure StatementTree (n : ℕ) where
  command : Fin n → Command
  parent : Fin n → Option (Fin n)
  relationshipType : Fin n → RelationshipType
  unnest : Fin n → Bool
  parent_lt : ∀ {i p}, parent i = some p → p < i
  siblings_relationshipType : ∀ {i j p}, parent i = some p → parent j = some p →
    relationshipType i = relationshipType j
  selectors_ne_nil : ∀ i, (command i).selectors ≠ []
  /-- A selector's identity determines it. -/
  id_inj : ∀ {i j u v}, u ∈ (command i).selectors → v ∈ (command j).selectors → u.id = v.id →
    u = v
  id_nodup : ∀ i, ((command i).selectors.map (·.id)).Nodup
  /-- Only the unit verb is inherited without a new instance. -/
  id_shared : ∀ {i j u}, u ∈ (command i).selectors → u ∈ (command j).selectors → i ≠ j →
    u.kind = .unit
  /-- A selector that was inherited is handed on to the children. -/
  inherited : ∀ {i j u}, u ∈ (command i).selectors → u ∈ (command j).selectors → i ≠ j →
    ∀ {c}, parent c = some i → u ∈ (command c).selectors

namespace StatementTree

/-- Statements whose selectors all have different identities share none. -/
private theorem eq_of_shared_id {n : ℕ} {command : Fin n → Command}
    (hid : ((List.finRange n).flatMap fun i => (command i).selectors.map (·.id)).Nodup)
    {i j : Fin n} {u v : Verb} (hu : u ∈ (command i).selectors)
    (hv : v ∈ (command j).selectors) (h : u.id = v.id) : i = j := by
  by_contra hne
  have hsymm : Std.Symm (Function.onFun List.Disjoint
      fun i => (command i).selectors.map (·.id)) := ⟨fun _ _ h => List.Disjoint.symm h⟩
  have hdisj := (List.nodup_flatMap.mp hid).2.forall (List.mem_finRange i)
    (List.mem_finRange j) hne
  exact hdisj (List.mem_map_of_mem hu) (h ▸ List.mem_map_of_mem hv)

/-- A tree whose statements all follow the same relationships and share no selector. -/
def ofDistinct {n : ℕ} (command : Fin n → Command) (parent : Fin n → Option (Fin n))
    (rel : RelationshipType) (hparent : ∀ i p, parent i = some p → p < i)
    (hne : ∀ i, (command i).selectors.isEmpty = false)
    (hid : ((List.finRange n).flatMap fun i => (command i).selectors.map (·.id)).Nodup) :
    StatementTree n where
  command := command
  parent := parent
  relationshipType _ := rel
  unnest _ := false
  parent_lt h := hparent _ _ h
  siblings_relationshipType _ _ := rfl
  selectors_ne_nil i h := by
    have := hne i
    rw [h] at this
    cases this
  id_nodup i := (List.nodup_flatMap.mp hid).1 i (List.mem_finRange i)
  id_inj := by
    intro i j u v hu hv h
    obtain rfl := eq_of_shared_id hid hu hv h
    exact List.inj_on_of_nodup_map ((List.nodup_flatMap.mp hid).1 i (List.mem_finRange i)) hu hv h
  id_shared hu hv hne := absurd (eq_of_shared_id hid hu hv rfl) hne
  inherited hu hv hne := absurd (eq_of_shared_id hid hu hv rfl) hne

/-- Such a tree, with the conditions checked by evaluation. -/
def ofChecked {n : ℕ} (command : Fin n → Command) (parent : Fin n → Option (Fin n))
    (rel : RelationshipType)
    (h : decide ((∀ i p, parent i = some p → p < i) ∧
      (∀ i, (command i).selectors.isEmpty = false) ∧
      ((List.finRange n).flatMap fun i => (command i).selectors.map (·.id)).Nodup)) :
    StatementTree n :=
  .ofDistinct command parent rel (of_decide_eq_true h).1 (of_decide_eq_true h).2.1
    (of_decide_eq_true h).2.2

variable {n : ℕ} (t : StatementTree n)

/-- The selectors of a statement. -/
def selectors (i : Fin n) : List Verb := (t.command i).selectors

/-- The children of a statement, in visiting order. -/
def children (i : Fin n) : List (Fin n) :=
  (List.finRange n).filter fun j => t.parent j == some i

@[simp] theorem mem_children {i j : Fin n} : j ∈ t.children i ↔ t.parent j = some i := by
  simp [children]

theorem lt_of_mem_children {i j : Fin n} (h : j ∈ t.children i) : i < j :=
  t.parent_lt (t.mem_children.mp h)

/-- `LabeledStatements`: the statements that carry a label, in visiting order. -/
def labeledStatements (label : Text) : List (Fin n) :=
  (List.finRange n).flatMap fun j => ((t.command j).labels.filter (· == label)).map fun _ => j

theorem mem_labeledStatements {label : Text} {j : Fin n} :
    j ∈ t.labeledStatements label ↔ label ∈ (t.command j).labels := by
  simp [labeledStatements]

/-! ### Weak statements -/

/-- Whether the parent of a statement is marked; a top-level statement counts as if it
had a marked parent. -/
def parentWeak (weak : List (Fin n)) (i : Fin n) : Bool := match t.parent i with
  | none => true
  | some p => weak.contains p

/-- Whether every child of a statement is marked. -/
def allChildrenWeak (weak : List (Fin n)) (i : Fin n) : Bool :=
  (t.children i).all weak.contains

/-- One statement of a marking pass. -/
def markWeak (weak : List (Fin n)) (i : Fin n) : List (Fin n) :=
  if weak.contains i then weak
  else if (t.command i).isNonConstraining && (t.parentWeak weak i || t.allChildrenWeak weak i)
  then i :: weak else weak

/-- One pass over all statements. -/
def weakPass (weak : List (Fin n)) : List (Fin n) := (List.finRange n).foldl t.markWeak weak

/-- Passes until one changes nothing. -/
def weakLoop : ℕ → List (Fin n) → List (Fin n)
  | 0, weak => weak
  | k + 1, weak => if t.weakPass weak = weak then weak else weakLoop k (t.weakPass weak)

/-- `mark_weak_statements`. -/
def markWeakStatements : List (Fin n) := t.weakLoop (n + 1) []

/-- Whether a statement is weak. -/
def weak (i : Fin n) : Bool := t.markWeakStatements.contains i

/-- A pass only adds marks, each at most once. -/
theorem markWeak_grows (weak : List (Fin n)) (is : List (Fin n)) (h : weak.Nodup) :
    (is.foldl t.markWeak weak).Nodup ∧
      (is.foldl t.markWeak weak = weak ∨
        weak.length < (is.foldl t.markWeak weak).length) := by
  induction is generalizing weak with
  | nil => exact ⟨h, Or.inl rfl⟩
  | cons i is ih =>
    have hstep : (t.markWeak weak i).Nodup ∧
        (t.markWeak weak i = weak ∨ weak.length < (t.markWeak weak i).length) := by
      unfold markWeak
      split
      · exact ⟨h, Or.inl rfl⟩
      · next hi =>
        split
        · refine ⟨List.nodup_cons.mpr ⟨by simpa using hi, h⟩, Or.inr (by simp)⟩
        · exact ⟨h, Or.inl rfl⟩
    obtain ⟨hnd, hlen⟩ := ih _ hstep.1
    refine ⟨hnd, ?_⟩
    rw [List.foldl_cons]
    rcases hlen with heq | hlt <;> rcases hstep.2 with heq' | hlt'
    · exact Or.inl (heq.trans heq')
    · exact Or.inr (by rw [heq]; exact hlt')
    · exact Or.inr (by rw [heq'] at hlt ⊢; exact hlt)
    · exact Or.inr (by omega)

theorem weakLoop_fixed (k : ℕ) (weak : List (Fin n)) (h : weak.Nodup)
    (hk : n < weak.length + k) : t.weakPass (t.weakLoop k weak) = t.weakLoop k weak := by
  induction k generalizing weak with
  | zero =>
    have := h.length_le_card
    simp only [Fintype.card_fin] at this
    omega
  | succ k ih =>
    rw [weakLoop]
    split
    · assumption
    · next hne =>
      obtain ⟨hnd, hlen⟩ := t.markWeak_grows weak (List.finRange n) h
      refine ih _ hnd ?_
      have : weak.length < (t.weakPass weak).length := hlen.resolve_left hne
      omega

/-- **The marking reaches a fixed point**, so `n + 1` passes are all the source's loop
makes. -/
theorem markWeakStatements_fixed : t.weakPass t.markWeakStatements = t.markWeakStatements :=
  t.weakLoop_fixed (n + 1) [] List.nodup_nil (by simp)

/-- `all_descendants_weak`, to a depth. -/
def descendantsWeak : ℕ → Fin n → Bool
  | 0, _ => true
  | k + 1, i => (t.children i).all fun c => t.weak c && descendantsWeak k c

/-- `all_descendants_weak`: a tree of `n` statements is at most `n` deep. -/
def allDescendantsWeak (i : Fin n) : Bool := t.descendantsWeak n i

/-- Depth beyond the statements that can follow adds nothing. -/
theorem descendantsWeak_succ (k : ℕ) (i : Fin n) (hk : n ≤ i + k + 1) :
    t.descendantsWeak (k + 1) i = t.descendantsWeak k i := by
  induction k generalizing i with
  | zero =>
    have hnil : t.children i = [] := by
      rw [List.eq_nil_iff_forall_not_mem]
      intro c hc
      have := t.lt_of_mem_children hc
      have := c.isLt
      omega
    simp [descendantsWeak, hnil]
  | succ k ih =>
    rw [descendantsWeak, descendantsWeak, Bool.eq_iff_iff]
    simp only [List.all_eq_true, Bool.and_eq_true]
    refine forall_congr' fun c => imp_congr_right fun hc => ?_
    have hlt := t.lt_of_mem_children hc
    rw [ih c (by omega)]

theorem allDescendantsWeak_iff (i : Fin n) : t.allDescendantsWeak i = true ↔
    ∀ c ∈ t.children i, t.weak c = true ∧ t.allDescendantsWeak c = true := by
  unfold allDescendantsWeak
  rw [← t.descendantsWeak_succ n i (by omega), descendantsWeak]
  simp

/-- `should_skip_in_parent_merge`: a weak unit statement with nothing but weak
descendants can only echo its parent. -/
def shouldSkipInParentMerge (i : Fin n) : Bool :=
  t.weak i && (t.command i).isUnit && t.allDescendantsWeak i

end StatementTree

end Askl
