import Askl.Query.NameFilters

/-!
# What `ignore` excludes

The filter of `ignore` is the negation of a conjunction, of the name's predicate and of the
test for being below the package.  A criterion that leaves no label is no member of the
conjunction: next to the other criterion the exclusion is that of the other alone, and by
itself nothing is excluded.

## Main definitions

* `IgnoreVerb.compose`, `IgnoreVerb.keeps` — the predicate of an `ignore`, and the rows it
  keeps.
* `IgnoreVerb.Excludes` — the filter is the exclusion of the rows that meet the criteria.
* `IgnoreVerb.Ordinary` — both criteria leave labels.

## Main results

* `IgnoreVerb.keeps_eq` — the rows kept are those the conjunction does not keep.
* `IgnoreVerb.excludes_iff` — **the filter excludes as it says exactly when both criteria
  leave labels.**
-/

namespace Askl

open CompositeFilter

/-! ### Negations and conjunctions -/

theorem composeCurrent_mkNot (db : Database) {f : CompositeFilter} (h : ∀ g, f ≠ .not g) :
    (mkNot f).composeCurrent db = (f.composeCurrent db).map fun e r => !(e r) := by
  unfold mkNot
  split
  · next g => exact absurd rfl (h g)
  · rfl

theorem foldAnd_isSome {R : Type*} : ∀ {es : List (Option (R → Bool))},
    (∃ o ∈ es, o.isSome = true) → (foldAnd es).isSome = true
  | [], ⟨o, ho, _⟩ => by cases ho
  | none :: es, ⟨o, ho, hsome⟩ => by
    rcases List.mem_cons.mp ho with rfl | hes
    · cases hsome
    · show (foldAnd es).isSome = true
      exact foldAnd_isSome ⟨o, hes, hsome⟩
  | some e :: es, _ => by
    rw [foldAnd]
    split <;> rfl

namespace IgnoreVerb

section

variable (isUppercase : Char → Bool) (db : Database)

/-! ### The predicate -/

/-- The members of the conjunction. -/
def parts (name : Option NamePattern) (package : Option Text) : List CompositeFilter :=
  nameParts isUppercase name ++ packageParts package

/-- The predicate that the filter compiles to, or none for no constraint. -/
def compose (name : Option NamePattern) (package : Option Text) : Option (CurrentRow → Bool) :=
  (compositeFilter isUppercase name package).bind (composeCurrent db)

/-- Whether the filter keeps a row. -/
def keeps (v : IgnoreVerb) (row : CurrentRow) : Bool :=
  ((compose isUppercase db v.name v.package).map fun e => e row).getD true

/-- A path is strictly below that of a package. -/
def StrictlyBelow (package : Text) (path : Ltree) : Prop :=
  symbolNameToPath package <+: path ∧ path ≠ symbolNameToPath package

/-- A name that normalises to nothing; a glob does not. -/
def Nameless : NamePattern → Prop
  | .exact name => nameTokens true name = []
  | .glob _ => False

/-- A package whose path is that of nothing. -/
def Pathless (package : Text) : Prop := symbolNameToPath package = [unknownLabel]

/-- **Exclusion**, for what a positive filter matches by a name pattern: a row is kept
exactly when it does not meet all criteria, and a criterion that normalises to nothing
neither widens the exclusion, to what is excluded without the criterion, nor cancels it. -/
structure Excludes (positive : NamePattern → CompositeFilter) (v : IgnoreVerb) : Prop where
  keeps_iff : ∀ row : CurrentRow, row.symbol.Indexed → (v.keeps isUppercase db row = true ↔
    ¬((∀ p ∈ v.name, (positive p).keeps db row = true) ∧
      ∀ q ∈ v.package, StrictlyBelow q row.symbol.symbolPath))
  name_counts : ∀ p ∈ v.name, Nameless p →
    compose isUppercase db v.name v.package ≠ compose isUppercase db none v.package
  package_counts : ∀ q ∈ v.package, Pathless q →
    compose isUppercase db v.name v.package ≠ compose isUppercase db v.name none

/-- Both criteria leave labels. -/
def Ordinary (v : IgnoreVerb) : Prop :=
  (∀ p ∈ v.name, ¬Nameless p) ∧ ∀ q ∈ v.package, ¬Pathless q

/-! ### The members of the conjunction -/

/-- A glob is one leaf. -/
theorem exists_leaf_glob (g : GlobPattern) (dots anchored : Bool) :
    ∃ l, g.filter isUppercase dots anchored = .leaf l ∧
      (FilterLeaf.currentExpr db l).isSome = true := by
  rw [GlobPattern.filter]
  split
  · exact ⟨_, rfl, rfl⟩
  · exact ⟨_, rfl, rfl⟩

/-- A name is one leaf. -/
theorem exists_leaf_compoundNameFilter (p : NamePattern) :
    ∃ l, p.compoundNameFilter isUppercase = .leaf l := by
  cases p with
  | exact name => exact ⟨_, rfl⟩
  | glob g =>
    obtain ⟨l, hl, -⟩ := exists_leaf_glob isUppercase
      (Database.singleFile [] [] [] (by decide) (by decide) (by decide)) g true true
    exact ⟨l, hl⟩

/-- A name that leaves labels is a constraint. -/
theorem isSome_compoundNameFilter {p : NamePattern} (h : ¬Nameless p) :
    ((p.compoundNameFilter isUppercase).composeCurrent db).isSome = true := by
  cases p with
  | exact name =>
    show ((CompositeFilter.leaf (.compoundNameWithOptions name false true)).composeCurrent
      db).isSome = true
    rw [composeCurrent_open db h]
    rfl
  | glob g =>
    obtain ⟨l, hl, hsome⟩ := exists_leaf_glob isUppercase db g true true
    show ((g.filter isUppercase true true).composeCurrent db).isSome = true
    rw [hl]
    exact hsome

theorem packageParts_of_pathless {q : Text} (h : Pathless q) : packageParts (some q) = [] := by
  have hnone : FilterLeaf.newPackageDescendant q = none := if_pos h
  rw [packageParts, hnone]

theorem packageParts_of_not_pathless {q : Text} (h : ¬Pathless q) :
    packageParts (some q) = [.leaf (.packageDescendant (symbolNameToPath q))] := by
  have hsome : FilterLeaf.newPackageDescendant q =
      some (.packageDescendant (symbolNameToPath q)) := if_neg h
  rw [packageParts, hsome]

theorem keeps_packageDescendant {q : Text} {row : CurrentRow} :
    (CompositeFilter.leaf (.packageDescendant (symbolNameToPath q))).keeps db row = true ↔
      StrictlyBelow q row.symbol.symbolPath := by
  show (ltreeContains (symbolNameToPath q) row.symbol.symbolPath &&
    !(row.symbol.symbolPath == symbolNameToPath q)) = true ↔ _
  rw [Bool.and_eq_true, ltreeContains, List.isPrefixOf_iff_prefix, Bool.not_eq_true',
    beq_eq_false_iff_ne]
  exact Iff.rfl

/-- The members are leaves, so the conjunction is no negation. -/
theorem mkAnd_parts_ne_not (name : Option NamePattern) (package : Option Text)
    (g : CompositeFilter) : mkAnd (parts isUppercase name package) ≠ .not g := by
  have hleaf : ∀ c ∈ parts isUppercase name package, ∃ l, c = .leaf l := by
    intro c hc
    rcases List.mem_append.mp hc with hc | hc
    · cases name with
      | none => cases hc
      | some p =>
        obtain rfl := List.mem_singleton.mp hc
        exact exists_leaf_compoundNameFilter isUppercase p
    · cases package with
      | none => cases hc
      | some q =>
        by_cases hq : Pathless q
        · rw [packageParts_of_pathless hq] at hc
          cases hc
        · rw [packageParts_of_not_pathless hq] at hc
          exact ⟨_, List.mem_singleton.mp hc⟩
  unfold mkAnd
  split
  · next c heq =>
    rw [heq] at hleaf
    obtain ⟨l, rfl⟩ := hleaf c List.mem_cons_self
    rintro ⟨⟩
  · rintro ⟨⟩

/-- The predicate is the negation of the conjunction. -/
theorem compose_eq (name : Option NamePattern) (package : Option Text) :
    compose isUppercase db name package =
      (foldAnd ((parts isUppercase name package).map (composeCurrent db))).map
        fun e r => !(e r) := by
  have hcompose : compose isUppercase db name package =
      (if (parts isUppercase name package).isEmpty then none
        else some (mkNot (mkAnd (parts isUppercase name package)))).bind (composeCurrent db) := rfl
  rw [hcompose]
  split
  · next hempty =>
    rw [List.isEmpty_iff.mp hempty]
    rfl
  · rw [Option.bind_some, composeCurrent_mkNot db (mkAnd_parts_ne_not isUppercase name package),
      composeCurrent_mkAnd]

/-- **The rows kept are those the conjunction does not keep**, if there is any constraint. -/
theorem keeps_eq {v : IgnoreVerb} {row : CurrentRow}
    (h : ∃ c ∈ parts isUppercase v.name v.package, (c.composeCurrent db).isSome = true) :
    v.keeps isUppercase db row =
      !((parts isUppercase v.name v.package).all fun c => c.keeps db row) := by
  obtain ⟨c, hc, hsome⟩ := h
  have hfold := foldAnd_keeps row
    ((parts isUppercase v.name v.package).map (composeCurrent db))
  obtain ⟨e, he⟩ := Option.isSome_iff_exists.mp
    (foldAnd_isSome ⟨_, List.mem_map_of_mem hc, hsome⟩)
  rw [he, List.all_map] at hfold
  rw [keeps, compose_eq, he]
  exact congrArg Bool.not hfold

/-! ### Criteria that normalise to nothing -/

/-- A name without tokens is not a member. -/
theorem compose_of_nameless {p : NamePattern} (h : Nameless p) (package : Option Text) :
    compose isUppercase db (some p) package = compose isUppercase db none package := by
  cases p with
  | glob g => exact absurd h id
  | exact name =>
    rw [compose_eq, compose_eq, parts, parts, nameParts, nameParts, List.singleton_append,
      List.map_cons, NamePattern.compoundNameFilter, composeCurrent_open_eq_none db h]
    rfl

/-- A package without labels is not one either. -/
theorem compose_of_pathless {q : Text} (h : Pathless q) (name : Option NamePattern) :
    compose isUppercase db name (some q) = compose isUppercase db name none := by
  rw [compose_eq, compose_eq, parts, parts, packageParts_of_pathless h]
  rfl

variable {isUppercase db} {v : IgnoreVerb}

theorem Excludes.ordinary {positive : NamePattern → CompositeFilter}
    (h : v.Excludes isUppercase db positive) : v.Ordinary := by
  obtain ⟨name, package, hne⟩ := v
  constructor
  · rintro p rfl hp
    exact h.name_counts p rfl hp (compose_of_nameless isUppercase db hp package)
  · rintro q rfl hq
    exact h.package_counts q rfl hq (compose_of_pathless isUppercase db hq name)

/-- The rows an ordinary `ignore` keeps. -/
theorem Ordinary.keeps_iff (h : v.Ordinary) (row : CurrentRow) :
    v.keeps isUppercase db row = true ↔
      ¬((∀ p ∈ v.name, (p.compoundNameFilter isUppercase).keeps db row = true) ∧
        ∀ q ∈ v.package, StrictlyBelow q row.symbol.symbolPath) := by
  obtain ⟨name, package, hne⟩ := v
  obtain ⟨hname, hpackage⟩ := h
  have hsome : ∃ c ∈ parts isUppercase name package, (c.composeCurrent db).isSome = true := by
    cases name with
    | some p =>
      exact ⟨_, List.mem_append_left _ List.mem_cons_self,
        isSome_compoundNameFilter isUppercase db (hname p rfl)⟩
    | none =>
      cases package with
      | none => exact absurd hne (by decide)
      | some q =>
        refine ⟨.leaf (.packageDescendant (symbolNameToPath q)), ?_, rfl⟩
        rw [parts, packageParts_of_not_pathless (hpackage q rfl)]
        exact List.mem_singleton_self _
  have hparts : ((parts isUppercase name package).all fun c => c.keeps db row) = true ↔
      (∀ p ∈ name, (p.compoundNameFilter isUppercase).keeps db row = true) ∧
        ∀ q ∈ package, StrictlyBelow q row.symbol.symbolPath := by
    rw [parts, List.all_append, Bool.and_eq_true]
    refine and_congr ?_ ?_
    · cases name with
      | none => simp [nameParts]
      | some p => simp [nameParts]
    · cases package with
      | none => simp [packageParts]
      | some q =>
        rw [packageParts_of_not_pathless (hpackage q rfl), List.all_cons, List.all_nil,
          Bool.and_true, keeps_packageDescendant]
        simp
  rw [keeps_eq isUppercase db hsome, Bool.not_eq_true', Bool.eq_false_iff]
  exact not_congr hparts

/-- The selectors take a compound name as the filter does, and a glob. -/
theorem nameFilter_eq {p : NamePattern}
    (h : ∀ name, p = .exact name → isCompound name = true) :
    p.nameFilter isUppercase = p.compoundNameFilter isUppercase := by
  cases p with
  | exact name => exact if_pos (h name rfl)
  | glob g => rfl

/-- A function below a package, whose path has the tokens of a name before its leaf. -/
theorem exists_passed_token (package : Option Text) (name : Text) :
    ∃ path : Ltree, PathConstructed path ∧
      (∀ q ∈ package, StrictlyBelow q path) ∧ (nameTokens true name).Sublist path ∧
        path.getLastD unknownLabel ≠ extractLeafToken name true := by
  set base : Ltree := package.elim [] symbolNameToPath with hbase
  have hleaf : IsLabel (extractLeafToken name true ++ ['_']) := by
    have hmem := extractLeafToken_mem name true
    have hlabel := (pathConstructed_symbolNameToPath (replaceDots true name)).2 _ hmem
    refine ⟨by simp, fun c hc => ?_⟩
    rcases List.mem_append.mp hc with hc | hc
    · exact hlabel.2 c hc
    · rw [List.mem_singleton.mp hc]
      rfl
  refine ⟨base ++ nameTokens true name ++ [extractLeafToken name true ++ ['_']],
    ⟨by simp, fun l hl => ?_⟩, ?_, ?_, ?_⟩
  · rcases List.mem_append.mp hl with hl | hl
    · rcases List.mem_append.mp hl with hl | hl
      · rw [hbase] at hl
        cases package with
        | none => cases hl
        | some q => exact (pathConstructed_symbolNameToPath q).2 l hl
      · exact isLabel_of_mem_nameTokens hl
    · rw [List.mem_singleton.mp hl]
      exact hleaf
  · rintro q rfl
    refine ⟨by simp [hbase], fun heq => ?_⟩
    have hlength := congrArg List.length heq
    rw [hbase, Option.elim_some, List.length_append, List.length_append,
      List.length_singleton] at hlength
    omega
  · exact (List.sublist_append_right base _).trans (List.sublist_append_left _ _)
  · rw [List.getLastD_concat]
    intro heq
    have hlength := congrArg List.length heq
    simp at hlength

/-- The selectors test only the leaf for a name without separators. -/
theorem Excludes.isCompound_of_nameFilter
    (h : v.Excludes isUppercase db fun p => p.nameFilter isUppercase) {name : Text}
    (hname : v.name = some (.exact name)) : isCompound name = true := by
  by_contra hplain
  have hne : nameTokens true name ≠ [] := h.ordinary.1 _ hname
  obtain ⟨path, hpath, hbelow, hsub, hleaf⟩ := exists_passed_token v.package name
  set row := (Symbol.ofPath path).row with hrow
  have hindexed : row.symbol.Indexed := Symbol.indexed_ofPath hpath
  have hcompound : ((NamePattern.exact name).compoundNameFilter isUppercase).keeps db row =
      true := by
    have hopen := composeCurrent_open db hne
    rw [NamePattern.compoundNameFilter, keeps_of_composeCurrent db hopen]
    exact (lqueryMatches_lqueryParts_iff hne).mpr hsub
  -- the row is excluded, so it ought to be one that the selector matches
  have hexcluded : ¬v.keeps isUppercase db row = true := by
    rw [h.ordinary.keeps_iff row, not_not, hname]
    exact ⟨fun p hp => by obtain rfl := Option.some.inj hp; exact hcompound, hbelow⟩
  rw [h.keeps_iff row hindexed, not_not] at hexcluded
  have hselected := hexcluded.1 _ hname
  rw [NamePattern.nameFilter, if_neg hplain] at hselected
  exact hleaf (beq_iff_eq.mp hselected)

variable (isUppercase db v)

/-- **The filter excludes as it says exactly when both criteria leave labels**, for the rows
that `filter("compound_name", …)` matches by the name; the selectors match the same rows but
for an exact name without separators, which they compare with the leaf. -/
theorem excludes_iff :
    (v.Excludes isUppercase db (fun p => p.compoundNameFilter isUppercase) ↔ v.Ordinary) ∧
      (v.Excludes isUppercase db (fun p => p.nameFilter isUppercase) ↔
        v.Ordinary ∧ ∀ name, v.name = some (.exact name) → isCompound name = true) := by
  refine ⟨⟨Excludes.ordinary, fun h => ?_⟩, ⟨fun h => ⟨h.ordinary, fun name hname => ?_⟩, ?_⟩⟩
  · exact ⟨fun row _ => h.keeps_iff row, fun p hp hnil => absurd hnil (h.1 p hp),
      fun q hq hnil => absurd hnil (h.2 q hq)⟩
  · exact h.isCompound_of_nameFilter hname
  · rintro ⟨h, hcompound⟩
    refine ⟨fun row _ => ?_, fun p hp hnil => absurd hnil (h.1 p hp),
      fun q hq hnil => absurd hnil (h.2 q hq)⟩
    rw [h.keeps_iff row]
    refine not_congr (and_congr_left' (forall₂_congr fun p hp => ?_))
    rw [nameFilter_eq fun name hexact => hcompound name (by rw [Option.mem_def.mp hp, hexact])]

end

/-- `ignore("::", package="p")` drops the name, and with it excludes all below `p`. -/
theorem not_excludes_colons :
    ¬ Excludes (fun _ => false)
      (Database.singleFile [] [] [] (by decide) (by decide) (by decide))
      (fun p => p.compoundNameFilter fun _ => false)
      ⟨some (.exact [':', ':']), some ['p'], Or.inl rfl⟩ := by
  intro h
  have hnil : nameTokens true [':', ':'] = [] := by decide
  exact h.ordinary.1 _ rfl hnil

end IgnoreVerb

end Askl
