import Askl.Query.NamePattern

/-!
# What an exact name matches

The predicate of an exact name looks for the tokens of the name in the path of a symbol,
as the index computes it.  A name without any token, made of separators and of characters
that are removed, has no label to look for: a compound one is compiled to no constraint at
all, the others to a test for the label `unknown`.

## Main definitions

* `Symbol.Indexed` — a symbol whose path and leaf are computed from its name and type.
* `NameUse` — the places a name may be written in, with their predicates.
* `NameUse.LooksFor` — the predicate of a name looks for some of the given labels.

## Main results

* `lqueryMatches_lqueryParts_iff` — a compound name matches the paths its tokens are a
  subsequence of.
* `keeps_nameFilterLeaf_self` — **a typed selector finds the symbol it names.**
* `NameUse.looksFor_iff` — **a name is looked for exactly when it has a token.**
-/

namespace Askl

/-! ### Indexed symbols -/

/-- A symbol with the path and the leaf that its name and type have in the index. -/
def Symbol.Indexed (s : Symbol) : Prop :=
  (s.symbolPath, s.leafName) = symbolPathAndLeaf s.name s.symbolType

instance (s : Symbol) : Decidable s.Indexed := inferInstanceAs (Decidable (_ = _))

namespace Symbol.Indexed

variable {s : Symbol}

theorem symbolPath_eq (h : s.Indexed) :
    s.symbolPath = symbolNameToPath (replaceDots (dotIsSeparator s.symbolType) s.name) := by
  rw [← symbolPathAndLeaf_fst]
  exact congrArg Prod.fst h

theorem leafName_eq (h : s.Indexed) :
    s.leafName = extractLeafToken s.name (dotIsSeparator s.symbolType) := by
  rw [← symbolPathAndLeaf_snd_eq_extractLeafToken]
  exact congrArg Prod.snd h

theorem leafName_eq_getLastD (h : s.Indexed) : s.leafName = s.symbolPath.getLastD unknownLabel := by
  have hpath : s.symbolPath = (symbolPathAndLeaf s.name s.symbolType).1 := congrArg Prod.fst h
  rw [hpath]
  exact congrArg Prod.snd h

theorem pathConstructed (h : s.Indexed) : PathConstructed s.symbolPath := by
  rw [h.symbolPath_eq]
  exact pathConstructed_symbolNameToPath _

theorem leafName_mem (h : s.Indexed) : s.leafName ∈ s.symbolPath := by
  rw [h.leafName_eq_getLastD, List.getLastD_eq_getLast?,
    List.getLast?_eq_some_getLast h.pathConstructed.1]
  exact List.getLast_mem _

/-- The path of a name with tokens has them all. -/
theorem symbolPath_eq_nameTokens (h : s.Indexed)
    (hne : nameTokens (dotIsSeparator s.symbolType) s.name ≠ []) :
    s.symbolPath = nameTokens (dotIsSeparator s.symbolType) s.name := by
  rw [h.symbolPath_eq, symbolNameToPath_eq]
  exact if_neg (by simpa using hne)

end Symbol.Indexed

/-- The symbol that a function of a given path is. -/
def Symbol.ofPath (path : Ltree) : Symbol :=
  ⟨1, joinLabels path, path, 1, symbolTypeFunction, path.getLastD unknownLabel, 1⟩

theorem Symbol.indexed_ofPath {path : Ltree} (h : PathConstructed path) :
    (Symbol.ofPath path).Indexed := by
  have hpath : (symbolPathAndLeaf (joinLabels path) symbolTypeFunction).1 = path := by
    rw [symbolPathAndLeaf_fst]
    exact symbolNameToPath_joinLabels h
  show (path, path.getLastD unknownLabel) = symbolPathAndLeaf (joinLabels path) symbolTypeFunction
  refine Prod.ext hpath.symm ?_
  rw [symbolPathAndLeaf_snd, hpath]

/-- A symbol of a given name and type. -/
def Symbol.named (name : Text) (symbolType : ℤ) : Symbol :=
  ⟨1, name, (symbolPathAndLeaf name symbolType).1, 1, symbolType,
    (symbolPathAndLeaf name symbolType).2, 1⟩

/-- The row of an instance of a symbol. -/
def Symbol.row (s : Symbol) : CurrentRow where
  symbol := s
  symbolInstance := .plain 1 s.id 0 1 (.refl true)
  object := ⟨1, 1, ['/', 'f'], 1⟩
  project := ⟨1, ['p'], 1⟩

/-! ### Compound names -/

theorem lqueryMatches_any {q : List LqueryItem} {path : Ltree} :
    lqueryMatches (.any :: q) path = true ↔
      ∃ rest, rest <:+ path ∧ lqueryMatches q rest = true := by
  rw [lqueryMatches, List.any_eq_true]
  exact exists_congr fun s => and_congr_left' (List.mem_tails _ _)

theorem lqueryMatches_label {q : List LqueryItem} {l : Text} {path : Ltree} :
    lqueryMatches (.label l :: q) path = true ↔
      ∃ rest, path = l :: rest ∧ lqueryMatches q rest = true := by
  cases path with
  | nil => simp [lqueryMatches]
  | cons l' rest =>
    rw [lqueryMatches, Bool.and_eq_true, beq_iff_eq]
    constructor
    · rintro ⟨rfl, h⟩
      exact ⟨rest, rfl, h⟩
    · rintro ⟨rest', heq, h⟩
      obtain ⟨rfl, rfl⟩ := List.cons.inj heq
      exact ⟨rfl, h⟩

/-- What a compound name matches has its tokens, in order. -/
theorem sublist_of_lqueryMatches {anchorLeaf : Bool} : ∀ {tokens : List Text} {path : Ltree},
    lqueryMatches (.any :: lqueryParts anchorLeaf tokens) path = true → tokens.Sublist path
  | [], _, _ => List.nil_sublist _
  | [t], path, h => by
    obtain ⟨s, hs, hmatch⟩ := lqueryMatches_any.mp h
    have hlabel : ∃ q, lqueryMatches (.label t :: q) s = true := by
      cases anchorLeaf with
      | true => exact ⟨_, hmatch⟩
      | false => exact ⟨_, hmatch⟩
    obtain ⟨q, hq⟩ := hlabel
    obtain ⟨rest, rfl, -⟩ := lqueryMatches_label.mp hq
    exact (List.singleton_sublist.mpr List.mem_cons_self).trans hs.sublist
  | t :: t' :: tokens, path, h => by
    obtain ⟨s, hs, hmatch⟩ := lqueryMatches_any.mp h
    obtain ⟨rest, rfl, hrest⟩ := lqueryMatches_label.mp hmatch
    exact ((sublist_of_lqueryMatches hrest).cons_cons t).trans hs.sublist

/-- A path matches when the name's tokens are its own labels. -/
theorem lqueryMatches_self {anchorLeaf : Bool} : ∀ {tokens : List Text}, tokens ≠ [] →
    lqueryMatches (.any :: lqueryParts anchorLeaf tokens) tokens = true
  | [t], _ => by
    refine lqueryMatches_any.mpr ⟨[t], List.suffix_refl _, ?_⟩
    cases anchorLeaf with
    | true => exact lqueryMatches_label.mpr ⟨[], rfl, rfl⟩
    | false =>
      exact lqueryMatches_label.mpr
        ⟨[], rfl, lqueryMatches_any.mpr ⟨[], List.suffix_refl _, rfl⟩⟩
  | t :: t' :: tokens, _ =>
    lqueryMatches_any.mpr ⟨_, List.suffix_refl _,
      lqueryMatches_label.mpr ⟨_, rfl, lqueryMatches_self (List.cons_ne_nil t' tokens)⟩⟩

/-- An open compound name matches what extends a match in front. -/
theorem lqueryMatches_of_suffix {q : List LqueryItem} {path path' : Ltree} (h : path <:+ path')
    (hmatch : lqueryMatches (.any :: q) path = true) : lqueryMatches (.any :: q) path' = true := by
  obtain ⟨s, hs, hm⟩ := lqueryMatches_any.mp hmatch
  exact lqueryMatches_any.mpr ⟨s, hs.trans h, hm⟩

/-- **An open compound name matches the paths its tokens are a subsequence of.** -/
theorem lqueryMatches_lqueryParts_iff {tokens : List Text} {path : Ltree} (hne : tokens ≠ []) :
    lqueryMatches (.any :: lqueryParts false tokens) path = true ↔ tokens.Sublist path := by
  refine ⟨sublist_of_lqueryMatches, fun h => ?_⟩
  induction h with
  | slnil => exact absurd rfl hne
  | cons l hsub ih => exact lqueryMatches_of_suffix (List.suffix_cons l _) (ih hne)
  | @cons_cons tokens path l hsub ih =>
    refine lqueryMatches_any.mpr ⟨l :: path, List.suffix_refl _, ?_⟩
    cases tokens with
    | nil =>
      exact lqueryMatches_label.mpr
        ⟨path, rfl, lqueryMatches_any.mpr ⟨[], List.nil_suffix, rfl⟩⟩
    | cons t tokens => exact lqueryMatches_label.mpr ⟨path, rfl, ih (List.cons_ne_nil t tokens)⟩

/-! ### The predicates of a name -/

section Predicates

variable (db : Database) {name : Text} {dots leafAnchored : Bool}

theorem buildLquery_of_ne_nil (h : nameTokens dots name ≠ []) :
    buildLquery name leafAnchored dots =
      some (.any :: lqueryParts leafAnchored (nameTokens dots name)) :=
  if_neg (by rw [List.isEmpty_iff]; exact h)

theorem buildLquery_of_eq_nil (h : nameTokens dots name = []) :
    buildLquery name leafAnchored dots = none :=
  if_pos (by rw [List.isEmpty_iff]; exact h)

/-- The last token is a label of the name's path. -/
theorem extractLeafToken_mem (name : Text) (dots : Bool) :
    extractLeafToken name dots ∈ symbolNameToPath (replaceDots dots name) := by
  show (nameTokens dots name).getLastD unknownLabel ∈ _
  rw [symbolNameToPath_eq]
  rcases List.eq_nil_or_concat (nameTokens dots name) with h | ⟨ts, t, h⟩
  · rw [h]
    exact List.mem_cons_self
  · rw [h]
    simp

/-- An open compound name without tokens is no constraint. -/
theorem composeCurrent_open_eq_none (h : nameTokens dots name = []) :
    (CompositeFilter.leaf (.compoundNameWithOptions name false dots)).composeCurrent db = none := by
  show FilterLeaf.currentExpr db (.compoundName _ _) = none
  rw [buildLquery_of_eq_nil h]
  rfl

/-- An open compound name with tokens is. -/
theorem composeCurrent_open (h : nameTokens dots name ≠ []) :
    (CompositeFilter.leaf (.compoundNameWithOptions name false dots)).composeCurrent db =
      some fun r => lqueryMatches (.any :: lqueryParts false (nameTokens dots name))
        r.symbol.symbolPath := by
  show FilterLeaf.currentExpr db (.compoundName _ _) = _
  rw [buildLquery_of_ne_nil h]
  rfl

/-- An anchored compound name is a constraint, and so is a leaf name. -/
theorem composeCurrent_anchored :
    ∃ e, (CompositeFilter.leaf (.compoundNameWithOptions name true dots)).composeCurrent db =
        some e ∧ ∀ r, e r = true → r.symbol.leafName = extractLeafToken name dots := by
  by_cases h : nameTokens dots name = []
  · refine ⟨fun r => r.symbol.leafName == extractLeafToken name dots, ?_, fun r hr => ?_⟩
    · show FilterLeaf.currentExpr db (.compoundName _ _) = _
      rw [buildLquery_of_eq_nil h]
      rfl
    · exact beq_iff_eq.mp hr
  · refine ⟨fun r => r.symbol.leafName == extractLeafToken name dots &&
      lqueryMatches (.any :: lqueryParts true (nameTokens dots name)) r.symbol.symbolPath, ?_,
      fun r hr => ?_⟩
    · show FilterLeaf.currentExpr db (.compoundName _ _) = _
      rw [buildLquery_of_ne_nil h]
      rfl
    · exact beq_iff_eq.mp (Bool.and_eq_true_iff.mp hr).1

/-! ### A symbol's own name -/

variable {row : CurrentRow}

/-- The compound predicate of a symbol's name keeps the symbol. -/
theorem keeps_compoundName_self (h : row.symbol.Indexed) (leafAnchored : Bool) :
    (CompositeFilter.leaf (.compoundNameWithOptions row.symbol.name leafAnchored
      (dotIsSeparator row.symbol.symbolType))).keeps db row = true := by
  by_cases htokens : nameTokens (dotIsSeparator row.symbol.symbolType) row.symbol.name = []
  · show ((FilterLeaf.currentExpr db (.compoundName _ _)).map _).getD true = true
    rw [buildLquery_of_eq_nil htokens]
    cases leafAnchored with
    | false => rfl
    | true => exact beq_iff_eq.mpr h.leafName_eq
  · have hmatch : lqueryMatches (.any :: lqueryParts leafAnchored
        (nameTokens (dotIsSeparator row.symbol.symbolType) row.symbol.name))
        row.symbol.symbolPath = true := by
      rw [h.symbolPath_eq_nameTokens htokens]
      exact lqueryMatches_self htokens
    show ((FilterLeaf.currentExpr db (.compoundName _ _)).map _).getD true = true
    rw [buildLquery_of_ne_nil htokens]
    cases leafAnchored with
    | false => exact hmatch
    | true => exact Bool.and_eq_true_iff.mpr ⟨beq_iff_eq.mpr h.leafName_eq, hmatch⟩

/-- The leaf predicate of a symbol's name keeps the symbol. -/
theorem keeps_leafName_self (h : row.symbol.Indexed) :
    (CompositeFilter.leaf (leafName row.symbol.name
      (dotIsSeparator row.symbol.symbolType))).keeps db row = true :=
  beq_iff_eq.mpr h.leafName_eq

end Predicates

/-- Dots are part of the names of files and directories. -/
theorem dotIsSeparator_eq (symbolType : ℤ) :
    dotIsSeparator symbolType =
      !decide (symbolType = symbolTypeDirectory ∨ symbolType = symbolTypeFile) := by
  rw [dotIsSeparator, symbolTypeDirectory, symbolTypeFile]
  by_cases h4 : symbolType = 4
  · subst h4
    rfl
  · by_cases h2 : symbolType = 2
    · subst h2
      rfl
    · simp [h2, h4]

/-- **A typed selector finds the symbol it names**, anchored or not: the predicate of the
symbol's own name keeps its row. -/
theorem keeps_nameFilterLeaf_self (isUppercase : Char → Bool) (db : Database)
    (leafAnchored : Bool) {row : CurrentRow} (h : row.symbol.Indexed) :
    (TypeSelector.nameFilterLeaf isUppercase (.exact row.symbol.name) row.symbol.symbolType
      leafAnchored).keeps db row = true := by
  have hcompound := keeps_compoundName_self db h leafAnchored
  have hleaf := keeps_leafName_self db h
  rw [dotIsSeparator_eq] at hcompound hleaf
  rw [TypeSelector.nameFilterLeaf]
  split
  · next htype =>
    rw [decide_eq_true htype] at hcompound hleaf
    split
    · exact beq_self_eq_true _
    · split
      · exact hcompound
      · exact hleaf
  · next htype =>
    rw [decide_eq_false htype] at hcompound hleaf
    split
    · exact hcompound
    · exact hleaf

/-- A directory whose name has no tokens. -/
def separatorsSymbol : Symbol :=
  ⟨1, ['-', '/', '-'], [unknownLabel], 1, symbolTypeDirectory, unknownLabel, 1⟩

/-- It is found under its name, which has neither dots nor tokens. -/
theorem keeps_nameFilterLeaf_self_separators :
    (TypeSelector.nameFilterLeaf Char.isUpper (.exact ['-', '/', '-']) symbolTypeDirectory
      true).keeps (.singleFile [separatorsSymbol] [] [] (by decide) (by decide) (by decide))
        (Symbol.row separatorsSymbol) = true :=
  keeps_nameFilterLeaf_self Char.isUpper
    (.singleFile [separatorsSymbol] [] [] (by decide) (by decide) (by decide)) true
    (show (Symbol.row separatorsSymbol).symbol.Indexed by decide)

/-! ### What a name looks for -/

/-- The places an exact name may be written in. -/
inductive NameUse where
  /-- `"name"` and `!"name"`. -/
  | selector
  /-- `filter("compound_name", "name")`. -/
  | compoundFilter
  /-- `func("name")` and its like. -/
  | typed (symbolTypeId : ℤ) (leafAnchored : Bool)
  /-- `mod("name", filter="true")` and its like. -/
  | typeFilter (symbolTypeId : ℤ)
  deriving DecidableEq, Repr

namespace NameUse

section

variable (isUppercase : Char → Bool)

/-- The predicate of the name. -/
def filter (name : Text) : NameUse → CompositeFilter
  | selector => (NamePattern.exact name).nameFilter isUppercase
  | compoundFilter => (NamePattern.exact name).compoundNameFilter isUppercase
  | typed t leafAnchored => TypeSelector.nameFilterLeaf isUppercase (.exact name) t leafAnchored
  | typeFilter t => TypeSelector.compositeFilter isUppercase ⟨t, some (.exact name), true, false,
      !dotIsSeparator t⟩

/-- Whether dots separate the tokens of the name. -/
def dots : NameUse → Bool
  | selector => true
  | compoundFilter => true
  | typed t _ => dotIsSeparator t
  | typeFilter t => dotIsSeparator t

/-- The tokens of the name. -/
def tokens (use : NameUse) (name : Text) : List Text := nameTokens use.dots name

/-- The labels the name's path would have: the tokens, or `unknown`. -/
def labels (use : NameUse) (name : Text) : List Text :=
  symbolNameToPath (replaceDots use.dots name)

/-- A type a symbol of that name may have. -/
def symbolType : NameUse → ℤ
  | selector => symbolTypeFunction
  | compoundFilter => symbolTypeFunction
  | typed t _ => t
  | typeFilter t => t

/-- A typed selector asks for the symbols of its type besides. -/
def Covers (row : CurrentRow) : NameUse → Prop
  | typed t _ => row.symbol.symbolType = t
  | _ => True

/-- Whether the name is compiled to an open compound predicate. -/
def isOpen (name : Text) : NameUse → Bool
  | selector => isCompound name
  | compoundFilter => true
  | typed t leafAnchored => !leafAnchored &&
      if t = symbolTypeDirectory ∨ t = symbolTypeFile then
        name.head? != some '/' && isCompoundPath name
      else isCompound name
  | typeFilter _ => true

/-- The predicate of a name looks for some labels: it constrains the current query, and of
the symbols without any of the labels on their paths it accepts none. -/
def LooksFor (db : Database) (use : NameUse) (name : Text) (labels : List Text) : Prop :=
  ∃ e, (use.filter isUppercase name).composeCurrent db = some e ∧
    ∀ row : CurrentRow, row.symbol.Indexed → use.Covers row →
      (∀ l ∈ labels, l ∉ row.symbol.symbolPath) → e row = false

/-- The leaf of a predicate. -/
theorem filter_cases (use : NameUse) (name : Text) :
    (use.isOpen name = true ∧
        use.filter isUppercase name = .leaf (.compoundNameWithOptions name false use.dots)) ∨
      (use.isOpen name = false ∧
        (use.filter isUppercase name = .leaf (.compoundNameWithOptions name true use.dots) ∨
          use.filter isUppercase name = .leaf (leafName name use.dots) ∨
          (use.filter isUppercase name = .leaf (.exactName name) ∧
            ∃ t leafAnchored, use = .typed t leafAnchored))) := by
  cases use with
  | selector =>
    rw [isOpen, filter, NamePattern.nameFilter]
    cases isCompound name with
    | true => exact Or.inl ⟨rfl, rfl⟩
    | false => exact Or.inr ⟨rfl, Or.inr (Or.inl rfl)⟩
  | compoundFilter => exact Or.inl ⟨rfl, rfl⟩
  | typeFilter t => exact Or.inl ⟨rfl, rfl⟩
  | typed t leafAnchored =>
    rw [isOpen, filter, dots, dotIsSeparator_eq, TypeSelector.nameFilterLeaf]
    by_cases htype : t = symbolTypeDirectory ∨ t = symbolTypeFile
    · rw [if_pos htype, if_pos htype, decide_eq_true htype]
      by_cases hroot : name.head? = some '/'
      · rw [if_pos hroot]
        exact Or.inr ⟨by simp [hroot], Or.inr (Or.inr ⟨rfl, t, leafAnchored, rfl⟩)⟩
      · rw [if_neg hroot]
        cases hcompound : isCompoundPath name with
        | true =>
          cases leafAnchored with
          | true => exact Or.inr ⟨rfl, Or.inl rfl⟩
          | false => exact Or.inl ⟨by simp [hroot], rfl⟩
        | false => exact Or.inr ⟨by simp, Or.inr (Or.inl rfl)⟩
    · rw [if_neg htype, if_neg htype, decide_eq_false htype]
      cases hcompound : isCompound name with
      | true =>
        cases leafAnchored with
        | true => exact Or.inr ⟨rfl, Or.inl rfl⟩
        | false => exact Or.inl ⟨rfl, rfl⟩
      | false => exact Or.inr ⟨by simp, Or.inr (Or.inl rfl)⟩

variable {isUppercase} {db : Database} {use : NameUse} {name : Text}

/-- No predicate but an open one is without constraint, and whatever is accepted has a
label of the name. -/
theorem exists_mem_of_accepts (h : use.tokens name ≠ [] ∨ use.isOpen name = false) :
    ∃ e, (use.filter isUppercase name).composeCurrent db = some e ∧
      ∀ row : CurrentRow, row.symbol.Indexed → use.Covers row → e row = true →
        ∃ l ∈ use.labels name, l ∈ row.symbol.symbolPath := by
  have hleaf : ∀ row : CurrentRow, row.symbol.Indexed →
      row.symbol.leafName = extractLeafToken name use.dots →
        ∃ l ∈ use.labels name, l ∈ row.symbol.symbolPath := fun row hrow hl =>
    ⟨row.symbol.leafName, hl ▸ extractLeafToken_mem name use.dots, hrow.leafName_mem⟩
  rcases use.filter_cases isUppercase name with
    ⟨hopen, hfilter⟩ | ⟨-, hfilter | hfilter | ⟨hfilter, t, leafAnchored, rfl⟩⟩
  · have hne : nameTokens use.dots name ≠ [] := h.resolve_right (by rw [hopen]; decide)
    rw [hfilter, composeCurrent_open db hne]
    refine ⟨_, rfl, fun row _ _ hrow => ?_⟩
    have hsub := (lqueryMatches_lqueryParts_iff hne).mp hrow
    obtain ⟨t, ts, hts⟩ := List.exists_cons_of_ne_nil hne
    have ht : t ∈ nameTokens use.dots name := by
      rw [hts]
      exact List.mem_cons_self
    refine ⟨t, ?_, hsub.subset ht⟩
    rw [labels, symbolNameToPath_eq, if_neg (by rw [List.isEmpty_iff]; exact hne)]
    exact ht
  · obtain ⟨e, he, hsound⟩ := @composeCurrent_anchored db name use.dots
    rw [hfilter]
    exact ⟨e, he, fun row hrow _ haccept => hleaf row hrow (hsound row haccept)⟩
  · rw [hfilter]
    exact ⟨_, rfl, fun row hrow _ haccept => hleaf row hrow (beq_iff_eq.mp haccept)⟩
  · rw [hfilter]
    refine ⟨_, rfl, fun row hrow hcovers haccept => ?_⟩
    obtain rfl : row.symbol.name = name := beq_iff_eq.mp haccept
    refine hleaf row hrow ?_
    rw [hrow.leafName_eq, show row.symbol.symbolType = t from hcovers]
    rfl

/-- The predicate of a name accepts a symbol of that name. -/
theorem keeps_self {row : CurrentRow} (h : row.symbol.Indexed)
    (htype : row.symbol.symbolType = use.symbolType) :
    (use.filter isUppercase row.symbol.name).keeps db row = true := by
  have hdots : use.dots = dotIsSeparator row.symbol.symbolType := by
    rw [htype]
    cases use <;> rfl
  have hcompound := keeps_compoundName_self db h
  have hleaf := keeps_leafName_self db h
  rw [← hdots] at hleaf
  simp only [← hdots] at hcompound
  rcases use.filter_cases isUppercase row.symbol.name with
    ⟨-, hfilter⟩ | ⟨-, hfilter | hfilter | ⟨hfilter, -⟩⟩
  · rw [hfilter]
    exact hcompound false
  · rw [hfilter]
    exact hcompound true
  · rw [hfilter]
    exact hleaf
  · rw [hfilter]
    exact beq_self_eq_true _

/-- **A name is looked for exactly when it has a token.**  Counting `unknown`, the path of a
name without tokens, as its label, all names are but the compound ones without tokens. -/
theorem looksFor_iff (isUppercase : Char → Bool) (db : Database) (use : NameUse) (name : Text) :
    (use.LooksFor isUppercase db name (use.tokens name) ↔ use.tokens name ≠ []) ∧
      (use.LooksFor isUppercase db name (use.labels name) ↔
        use.tokens name ≠ [] ∨ use.isOpen name = false) := by
  have hlooks : use.tokens name ≠ [] ∨ use.isOpen name = false →
      use.LooksFor isUppercase db name (use.labels name) := by
    intro h
    obtain ⟨e, he, hsound⟩ := exists_mem_of_accepts h
    refine ⟨e, he, fun row hrow hcovers hnone => ?_⟩
    rw [Bool.eq_false_iff]
    intro haccept
    obtain ⟨l, hl, hmem⟩ := hsound row hrow hcovers haccept
    exact hnone l hl hmem
  refine ⟨⟨?_, fun hne => ?_⟩, fun ⟨e, he, _⟩ => ?_, hlooks⟩
  · rintro ⟨e, he, hnone⟩ hnil
    -- the symbol of that name is accepted, and there is no token on its path
    have hindexed : (Symbol.named name use.symbolType).Indexed := rfl
    have hkeeps : (use.filter isUppercase name).keeps db
        (Symbol.named name use.symbolType).row = true := keeps_self hindexed rfl
    rw [CompositeFilter.keeps_of_composeCurrent db he] at hkeeps
    have hcovers : use.Covers (Symbol.named name use.symbolType).row := by
      cases use <;> trivial
    rw [hnone _ hindexed hcovers (by rw [hnil]; rintro l ⟨⟩)] at hkeeps
    cases hkeeps
  · have hlabels : use.labels name = use.tokens name := by
      rw [labels, symbolNameToPath_eq]
      exact if_neg (by rw [List.isEmpty_iff]; exact hne)
    rw [← hlabels]
    exact hlooks (Or.inl hne)
  · by_contra h
    obtain ⟨hnil, hopen⟩ := not_or.mp h
    rw [not_not] at hnil
    rw [Bool.not_eq_false] at hopen
    rcases use.filter_cases isUppercase name with ⟨-, hfilter⟩ | ⟨hclosed, -⟩
    · rw [hfilter, composeCurrent_open_eq_none db hnil] at he
      cases he
    · rw [hopen] at hclosed
      cases hclosed

/-- A bare `"::"` selects every symbol. -/
theorem not_looksFor_colons :
    (NameUse.selector.filter (fun _ => false) [':', ':']).composeCurrent
        (Database.singleFile [] [] [] (by decide) (by decide) (by decide)) = none ∧
      ¬ NameUse.selector.LooksFor (fun _ => false)
        (Database.singleFile [] [] [] (by decide) (by decide) (by decide)) [':', ':']
        (NameUse.selector.tokens [':', ':']) := by
  have hnone : (NameUse.selector.filter (fun _ => false) [':', ':']).composeCurrent
      (Database.singleFile [] [] [] (by decide) (by decide) (by decide)) = none :=
    composeCurrent_open_eq_none _ (by decide)
  refine ⟨hnone, ?_⟩
  rintro ⟨e, he, -⟩
  rw [hnone] at he
  cases he

end

end NameUse

end Askl
