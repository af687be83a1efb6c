import Askl.Query.LayerBlock
import Askl.Query.Parse
import Askl.Store.SymbolPaths

/-!
# Name patterns

An argument that names symbols is an exact name, from a plain string, or a glob, from a
`g"…"` string, whose wildcard matches any run of characters.  A glob is refused when it
has nothing that a name could match.  An exact name is compiled by the separators in it:
to a test of the leaf name, of the labels along the path, or, for an absolute path of a
file or a directory, of the name itself.

## Main definitions

* `NameToken`, `GlobPattern`, `NamePattern` — patterns, with their constructors.
* `globName`, `fullNameGlob` — the `LIKE` patterns of a glob.
* `NamePattern.nameFilter`, `NamePattern.compoundNameFilter`, `TypeSelector.nameFilterLeaf` —
  the filters of bare selectors, of `filter("compound_name", …)` and of typed selectors.
* `TypeSelector.compositeFilter`, `IgnoreVerb.compositeFilter` — the filters of two verbs.

## Main results

* `CompositeFilter.composeCurrent_mkAnd`, `CompositeFilter.keeps_mkAnd` — the predicate of a
  conjunction, and the rows it keeps.
-/

namespace Askl

/-! ### Tokens of a glob -/

/-- `NameToken`. -/
inductive NameToken where
  | literal (text : Text)
  | wildcard
  | separator (c : Char)
  deriving DecidableEq, Repr

/-- `GlobPiece`. -/
inductive GlobPiece where
  | lit (text : Text)
  | star
  deriving DecidableEq, Repr

/-- `parse_name_pattern`: wildcards, separators and the runs of characters between them. -/
def parseNamePattern : Text → List NameToken
  | [] => []
  | c :: t =>
    if c = '*' then .wildcard :: parseNamePattern t
    else if isSeparator c then .separator c :: parseNamePattern t
    else match parseNamePattern t with
      | .literal s :: tokens => .literal (c :: s) :: tokens
      | tokens => .literal [c] :: tokens

/-- Whether a slash or a colon is among the tokens. -/
def hasHardSeparator (tokens : List NameToken) : Bool :=
  tokens.contains (.separator '/') || tokens.contains (.separator ':')

/-- Whether a dot is among the tokens. -/
def hasDot (tokens : List NameToken) : Bool := tokens.contains (.separator '.')

/-- Whether the pattern that is compiled will have a literal character. -/
def hasContent (tokens : List NameToken) : Bool :=
  if hasHardSeparator tokens then tokens.any fun
    | .literal s => !s.isEmpty
    | _ => false
  else tokens.any fun
    | .literal s => s.any fun c => c.isAlphanum || c == '_'
    | _ => false

/-- A token as a piece of the route over leaf names. -/
def NameToken.piece : NameToken → Option GlobPiece
  | .wildcard => some .star
  | .literal s => some (.lit s)
  | .separator '.' => some (.lit ['.'])
  | .separator _ => none

/-- `GlobPattern`: the text of a glob that can match something. -/
structure GlobPattern where
  raw : Text
  content : hasContent (parseNamePattern raw) = true

/-- `NamePattern`. -/
inductive NamePattern where
  | exact (name : Text)
  | glob (glob : GlobPattern)

/-- `GlobPattern::parse`. -/
def GlobPattern.parse (raw : Text) : Except String GlobPattern :=
  if h : hasContent (parseNamePattern raw) = true then .ok ⟨raw, h⟩
  else
    let text := String.ofList raw
    .error (s!"glob pattern g\"{text}\" must contain at least one literal character " ++
      "that can match a symbol name (a bare wildcard would select every symbol)")

/-- `NamePattern::from_value`. -/
def NamePattern.fromValue (v : Value) : Except String NamePattern :=
  match v.kind with
  | .plain => .ok (.exact v.text)
  | .glob => .glob <$> GlobPattern.parse v.text

section Filters

variable (isUppercase : Char → Bool)

/-! ### Globs -/

/-- `smart_case_sensitive`. -/
def smartCaseSensitive (pattern : Text) : Bool := pattern.any isUppercase

/-- `normalize_leaf_fragment`. -/
def normalizeLeafFragment (input : Text) (dotIsSeparator : Bool) : Text :=
  (replaceDots dotIsSeparator input).filter isLeafChar

/-- The loop of `GlobNameMixin::new`: the pattern, and whether a wildcard came last. -/
def globNamePattern (dotIsSeparator : Bool) : Bool → List GlobPiece → Text × Bool
  | lastWasWildcard, [] => ([], lastWasWildcard)
  | lastWasWildcard, .star :: pieces =>
    let rest := globNamePattern dotIsSeparator true pieces
    (if lastWasWildcard then rest.1 else '%' :: rest.1, rest.2)
  | lastWasWildcard, .lit text :: pieces =>
    let normalized := normalizeLeafFragment text dotIsSeparator
    let rest := globNamePattern dotIsSeparator (normalized.isEmpty && lastWasWildcard) pieces
    (escapeLike normalized ++ rest.1, rest.2)

/-- `GlobNameMixin::new`. -/
def globName (pieces : List GlobPiece) (dotIsSeparator anchored : Bool) : FilterLeaf :=
  let body := globNamePattern dotIsSeparator (!anchored) pieces
  .globName
    ((if anchored then [] else ['%']) ++ body.1 ++ if !anchored && !body.2 then ['%'] else [])
    (pieces.any fun
      | .lit text => smartCaseSensitive isUppercase (normalizeLeafFragment text dotIsSeparator)
      | .star => false)

/-- The loop of `FullNameGlobMixin::new`. -/
def fullNamePattern : Bool → Text → Text
  | _, [] => []
  | lastWasWildcard, c :: t =>
    if c = '*' then
      if lastWasWildcard then fullNamePattern true t else '%' :: fullNamePattern true t
    else escapeLike [c] ++ fullNamePattern false t

/-- `FullNameGlobMixin::new`. -/
def fullNameGlob (pattern : Text) : FilterLeaf :=
  .fullNameGlob (fullNamePattern false pattern) (smartCaseSensitive isUppercase pattern)

namespace GlobPattern

/-- `GlobPattern::full_name_filter`. -/
def fullNameFilter (g : GlobPattern) : CompositeFilter := .leaf (fullNameGlob isUppercase g.raw)

/-- `GlobPattern::filter`. -/
def filter (g : GlobPattern) (dotIsSeparator leafAnchored : Bool) : CompositeFilter :=
  let tokens := parseNamePattern g.raw
  if hasHardSeparator tokens || (hasDot tokens && dotIsSeparator) then
    g.fullNameFilter isUppercase
  else .leaf (globName isUppercase (tokens.filterMap NameToken.piece) dotIsSeparator leafAnchored)

end GlobPattern

/-! ### Exact names -/

/-- Whether a name of code has a separator. -/
def isCompound (name : Text) : Bool := name.any isSeparator

/-- Whether the name of a file or a directory has one. -/
def isCompoundPath (name : Text) : Bool := name.contains '/' || name.contains ':'

/-- `LeafNameMixin::new`. -/
def leafName (name : Text) (dotIsSeparator : Bool) : FilterLeaf :=
  .leafName (extractLeafToken name dotIsSeparator)

namespace NamePattern

/-- `name_filter`: the filter of bare selectors and of forced verbs. -/
def nameFilter : NamePattern → CompositeFilter
  | .exact name =>
    if isCompound name then .leaf (.compoundNameWithOptions name false true)
    else .leaf (leafName name true)
  | .glob g => g.filter isUppercase true true

/-- The filter of `filter("compound_name", …)`. -/
def compoundNameFilter : NamePattern → CompositeFilter
  | .exact name => .leaf (.compoundNameWithOptions name false true)
  | .glob g => g.filter isUppercase true true

/-- The filter of `filter("exact_name", …)`. -/
def exactNameFilter : NamePattern → CompositeFilter
  | .exact name => .leaf (.exactName name)
  | .glob g => g.fullNameFilter isUppercase

end NamePattern

/-- `parse_symbol_types`. -/
def parseSymbolTypes (s : Text) : Except String (List ℤ) :=
  (s.splitOn ',').mapM fun part =>
    match String.ofList (trim part) with
    | "func" => .ok symbolTypeFunction
    | "mod" => .ok symbolTypeModule
    | "file" => .ok symbolTypeFile
    | "dir" => .ok symbolTypeDirectory
    | "type" => .ok symbolTypeType
    | "data" => .ok symbolTypeData
    | "macro" => .ok symbolTypeMacro
    | "field" | "method" => .ok symbolTypeField
    | other => .error s!"Unknown symbol type: '{other}'"

/-- `FilterKind::parse`. -/
def FilterKind.parse (kind : Text) (value : Value) : Except String FilterKind :=
  match String.ofList kind with
  | "type" => do pure (.type (← parseSymbolTypes (← value.asPlain)))
  | "exact_name" => do
    pure (.exactName ((← NamePattern.fromValue value).exactNameFilter isUppercase))
  | "compound_name" => do
    pure (.compoundName ((← NamePattern.fromValue value).compoundNameFilter isUppercase))
  | other => .error (s!"Unknown filter kind: '{other}'. " ++
      "Expected 'type', 'exact_name', or 'compound_name'")

/-! ### Typed selectors -/

/-- `eq_ignore_ascii_case("true")`. -/
def isTrue (t : Text) : Bool := t.map Char.toLower == ['t', 'r', 'u', 'e']

/-- `TypeSelector`. -/
structure TypeSelector where
  symbolTypeId : ℤ
  namePattern : Option NamePattern
  filterOnly : Bool
  inherit : Bool
  leafAnchored : Bool

namespace TypeSelector

/-- `TypeSelector::new`. -/
def new (positional : List Value) (named : NamedArgs) (symbolTypeId : ℤ) :
    Except String TypeSelector := do
  let namePattern ← positional.head?.mapM NamePattern.fromValue
  let explicitFilter ← (named.lookup "filter".toList).mapM fun v => isTrue <$> v.asPlain
  let inherit ← (named.lookup "inherit".toList).mapM fun v => isTrue <$> v.asPlain
  let matchMode ← (named.lookup "match".toList).mapM Value.asPlain
  pure {
    symbolTypeId := symbolTypeId
    namePattern := namePattern
    filterOnly := explicitFilter.getD namePattern.isNone
    inherit := inherit.getD namePattern.isNone
    leafAnchored := matchMode != some "contains".toList && !dotIsSeparator symbolTypeId }

/-- `TypeSelector::name_filter_leaf`. -/
def nameFilterLeaf (pattern : NamePattern) (symbolTypeId : ℤ) (leafAnchored : Bool) :
    CompositeFilter :=
  match pattern with
  | .glob g => g.filter isUppercase (dotIsSeparator symbolTypeId) leafAnchored
  | .exact name =>
    if symbolTypeId = symbolTypeDirectory ∨ symbolTypeId = symbolTypeFile then
      if name.head? = some '/' then .leaf (.exactName name)
      else if isCompoundPath name then .leaf (.compoundNameWithOptions name leafAnchored false)
      else .leaf (leafName name false)
    else if isCompound name then .leaf (.compoundNameWithOptions name leafAnchored true)
    else .leaf (leafName name true)

/-- `TypeSelector::build_filter_parts`. -/
def filterParts (s : TypeSelector) : List CompositeFilter :=
  .leaf (.symbolType s.symbolTypeId) :: match s.namePattern with
    | none => []
    | some pattern => [nameFilterLeaf isUppercase pattern s.symbolTypeId s.leafAnchored]

/-- `TypeSelector::get_composite_filter`. -/
def compositeFilter (s : TypeSelector) : CompositeFilter :=
  match s.filterOnly, s.namePattern with
  | true, some (.exact name) =>
    .leaf (.compoundNameWithOptions name false (dotIsSeparator s.symbolTypeId))
  | true, some (.glob g) => g.filter isUppercase (dotIsSeparator s.symbolTypeId) true
  | _, _ => .mkAnd (s.filterParts isUppercase)

end TypeSelector

/-! ### Exclusion -/

/-- `CompositeFilter::not`, which removes a double negation. -/
def CompositeFilter.mkNot : CompositeFilter → CompositeFilter
  | .not inner => inner
  | f => .not f

/-- `IgnoreVerb`: one that names something to ignore. -/
structure IgnoreVerb where
  name : Option NamePattern
  package : Option Text
  nonempty : name.isSome = true ∨ package.isSome = true

namespace IgnoreVerb

/-- `IgnoreVerb::new`. -/
def new (positional : List Value) (named : NamedArgs) : Except String IgnoreVerb := do
  let name ← positional.head?.mapM NamePattern.fromValue
  let package ← (named.lookup "package".toList).mapM Value.asPlain
  if h : name.isSome = true ∨ package.isSome = true then pure ⟨name, package, h⟩
  else .error "Expected at least one argument"

/-- The part of the name. -/
def nameParts : Option NamePattern → List CompositeFilter
  | none => []
  | some pattern => [pattern.compoundNameFilter isUppercase]

/-- The part of the package; there is none for a package without labels. -/
def packageParts : Option Text → List CompositeFilter
  | none => []
  | some package => match FilterLeaf.newPackageDescendant package with
    | none => []
    | some leaf => [.leaf leaf]

/-- `IgnoreVerb::get_composite_filter`. -/
def compositeFilter (name : Option NamePattern) (package : Option Text) :
    Option CompositeFilter :=
  let parts := nameParts isUppercase name ++ packageParts package
  if parts.isEmpty then none else some (.mkNot (.mkAnd parts))

end IgnoreVerb

end Filters

/-! ### The rows a filter keeps -/

namespace CompositeFilter

variable (db : Database)

/-- Whether the current query keeps a row: without a constraint it keeps all. -/
def keeps (f : CompositeFilter) (row : CurrentRow) : Bool :=
  ((f.composeCurrent db).map fun e => e row).getD true

theorem keeps_of_composeCurrent {f : CompositeFilter} {e : CurrentRow → Bool}
    (h : f.composeCurrent db = some e) (row : CurrentRow) : f.keeps db row = e row := by
  rw [keeps, h]
  rfl

theorem foldAnd_keeps {R : Type*} (r : R) : ∀ es : List (Option (R → Bool)),
    ((foldAnd es).map fun e => e r).getD true = es.all fun o => (o.map fun e => e r).getD true
  | [] => rfl
  | none :: es => by
    rw [foldAnd, foldAnd_keeps r es, List.all_cons]
    rfl
  | some e :: es => by
    rw [List.all_cons, ← foldAnd_keeps r es, foldAnd]
    cases foldAnd es with
    | none => exact (Bool.and_true _).symm
    | some e' => rfl

theorem composeAll_eq_map {R : Type*} (e : FilterLeaf → Option (R → Bool))
    (cs : List CompositeFilter) : composeAll e cs = cs.map (compose e) := by
  induction cs with
  | nil => rfl
  | cons c cs ih => rw [composeAll, ih, List.map_cons]

/-- The conjunction of a single child is its conjunction with nothing. -/
theorem composeCurrent_mkAnd (cs : List CompositeFilter) :
    (mkAnd cs).composeCurrent db = foldAnd (cs.map (composeCurrent db)) := by
  unfold mkAnd
  split
  · next c =>
    rw [List.map_singleton]
    cases c.composeCurrent db <;> rfl
  · exact congrArg foldAnd (composeAll_eq_map _ cs)

/-- A conjunction keeps what all its children keep. -/
theorem keeps_mkAnd (cs : List CompositeFilter) (row : CurrentRow) :
    (mkAnd cs).keeps db row = cs.all fun c => c.keeps db row := by
  rw [keeps, composeCurrent_mkAnd, foldAnd_keeps, List.all_map]
  rfl

end CompositeFilter

end Askl
