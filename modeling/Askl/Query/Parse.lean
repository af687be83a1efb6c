import Askl.Library.Fallible
import Askl.Query.Tree

/-!
# From a query to its statements

The parser turns a query into a tree of statements.  Every verb that is written becomes
a new object, whose address is the identity of its selector.  A statement starts with
the verbs of the scope around it that are inherited, some of them as new objects and
some as the same object; a verb after `preamble` goes to the global context, which every
later statement at the top of the query starts from.

## Main definitions

* `VerbForm`, `ParsedVerb` — the verbs as their constructors build them.
* `ParserContext`, `ParserState` — the context of one statement, and what the contexts
  of a query share.
* `VerbForm.updateContext`, `buildVerb` — a verb is consumed by a context or extends its
  command.
* `StatementSyntax`, `StatementsSyntax` — the syntax of a query.
* `buildStatement`, `buildStatements`, `parse` — the statements, in visiting order.

## Main results

* `buildStatement_verbs_ok`, `buildStatement_scoped_ok` — the stages of a statement.
* `buildVerb_ok` — **a verb is consumed, or extends one of two commands.**
-/

namespace Askl

/-! ### Verbs -/

/-- The symbol types the parser names. -/
def symbolTypeFunction : ℤ := 1
def symbolTypeFile : ℤ := 2
def symbolTypeModule : ℤ := 3
def symbolTypeDirectory : ℤ := 4
def symbolTypeType : ℤ := 5
def symbolTypeData : ℤ := 6
def symbolTypeMacro : ℤ := 7
def symbolTypeField : ℤ := 8

/-- The tags by which a verb replaces another; a generic filter's tag carries the name of
its kind. -/
inductive VerbTag where
  | projectFilter
  | typeFilter
  | genericType
  | genericExactName
  | genericCompoundName
  | genericSelector
  | unnest
  deriving DecidableEq, Repr

/-- The kinds of a generic filter, with the pattern as it compiles. -/
inductive FilterKind where
  | type (symbolTypeIds : List ℤ)
  | exactName (pattern : CompositeFilter)
  | compoundName (pattern : CompositeFilter)

namespace FilterKind

/-- `tag_name`. -/
def tag : FilterKind → VerbTag
  | type _ => .genericType
  | exactName _ => .genericExactName
  | compoundName _ => .genericCompoundName

/-- `has_name_constraint`. -/
def hasNameConstraint : FilterKind → Bool
  | type _ => false
  | _ => true

/-- `get_composite_filter`. -/
def compositeFilter : FilterKind → CompositeFilter
  | type [id] => .leaf (.symbolType id)
  | type ids => .leaf (.defaultSymbolType ids)
  | exactName pattern => pattern
  | compoundName pattern => pattern

end FilterKind

/-- The verbs, with what their constructors compile. -/
inductive VerbForm where
  | nameSelector (nameFilter : CompositeFilter) (token : Option Text)
  | genericSelector
  | typeSelector (symbolTypeId : ℤ) (filter : CompositeFilter)
      (filterOnly named inherit : Bool) (token : Option Text)
  | forcedVerb (nameFilter : CompositeFilter)
  | userVerb (label : Text) (forced : Bool)
  | unitVerb
  | isolatedScope
  | layerVerb
  | locSelector
  | searchSelector
  | genericFilter (kind : FilterKind) (inherit : Bool)
  | ignoreVerb (composite : Option CompositeFilter)
  | projectFilter (projectName : Text)
  | directOnlyFilter
  | defaultTypeFilter (symbolTypeIds : List ℤ)
  | labelVerb (label : Text) (inherit : Bool)
  | preambleVerb
  | hasModifier
  | refsModifier
  | deriveModifier (relationshipType : RelationshipType) (inherit : Bool)
  | unnestModifier
  | anyModifier

/-- A verb of a command under construction; its address is its identity. -/
structure ParsedVerb where
  id : ℕ
  span : Span
  form : VerbForm

/-- Whether a verb is handed to the statements of a scope. -/
inductive DeriveMethod where
  | clone
  | skip
  deriving DecidableEq, Repr

namespace VerbForm

/-- What the executor asks of a verb; a layer block knows the labels its operations
refer to. -/
def kind (labelRefs : List Text) : VerbForm → VerbKind
  | nameSelector f token => .name f token
  | genericSelector => .select
  | typeSelector _ f filterOnly named inherit token => .type f filterOnly named inherit token
  | forcedVerb f => .forced f
  | userVerb l isForced => .use l isForced
  | unitVerb => .unit
  | isolatedScope => .isolatedScope
  | layerVerb => .layer labelRefs false
  | locSelector => .layer [] false
  | searchSelector => .layer [] true
  | genericFilter k _ => .filter (some k.compositeFilter) k.hasNameConstraint
  | ignoreVerb f => .filter f false
  | projectFilter p => .filter (some (.leaf (.projectFilter p))) false
  | directOnlyFilter => .filter (some (.leaf .directOnly)) false
  | defaultTypeFilter [] => .filter none false
  | defaultTypeFilter ids => .filter (some (.leaf (.defaultSymbolType ids))) false
  | labelVerb l _ => .label l
  | _ => .modifier

/-- `as_selector`. -/
def isSelector (f : VerbForm) : Bool := (f.kind []).isSelector

/-- `is_unit`. -/
def isUnit (f : VerbForm) : Bool := (f.kind []).isUnit

/-- Whether the verb is `layer`. -/
def isLayer : VerbForm → Bool
  | layerVerb => true
  | _ => false

/-- Whether the verb is `preamble`. -/
def isPreamble : VerbForm → Bool
  | preambleVerb => true
  | _ => false

/-- `get_tag`. -/
def tag : VerbForm → Option VerbTag
  | genericSelector => some .genericSelector
  | typeSelector _ _ filterOnly named _ _ => if filterOnly && named then some .typeFilter else none
  | genericFilter k _ => some k.tag
  | projectFilter _ => some .projectFilter
  | unnestModifier => some .unnest
  | _ => none

/-- `suppresses_default_type_filter`. -/
def suppressesDefaultTypeFilter : VerbForm → Bool
  | typeSelector .. => true
  | genericFilter (.type _) _ => true
  | _ => false

/-- `derive_method`. -/
def deriveMethod : VerbForm → DeriveMethod
  | typeSelector _ _ _ _ inherit _ => if inherit then .clone else .skip
  | genericFilter _ inherit => if inherit then .clone else .skip
  | labelVerb _ inherit => if inherit then .clone else .skip
  | unitVerb => .clone
  | ignoreVerb _ => .clone
  | projectFilter _ => .clone
  | _ => .skip

/-- Whether `derive_new_instance` makes a new object. -/
def derivesNewInstance : VerbForm → Bool
  | typeSelector .. => true
  | genericFilter _ inherit => inherit
  | _ => false

/-- `Verb::add_verb`: the verbs that stay when a verb is added.  Type selectors and `any`
drop the verbs that suppress the type filter, some verbs those with their own tag. -/
def addVerb (f : VerbForm) (existing : List ParsedVerb) : List ParsedVerb :=
  match f with
  | typeSelector .. => existing.filter fun v => !v.form.suppressesDefaultTypeFilter
  | anyModifier => existing.filter fun v => !v.form.suppressesDefaultTypeFilter
  | projectFilter _ => existing.filter fun v => f.tag != v.form.tag
  | genericFilter .. => existing.filter fun v => f.tag != v.form.tag
  | genericSelector => existing.filter fun v => f.tag != v.form.tag
  | _ => existing

/-- The kind of a layer block depends on its labels, whether it is a selector does not. -/
@[simp] theorem isSelector_kind (labelRefs : List Text) (f : VerbForm) :
    (f.kind labelRefs).isSelector = f.isSelector := by
  cases f <;> try rfl
  case defaultTypeFilter ids => cases ids <;> rfl

@[simp] theorem isUnit_kind (labelRefs : List Text) (f : VerbForm) :
    (f.kind labelRefs).isUnit = f.isUnit := by
  cases f <;> try rfl
  case defaultTypeFilter ids => cases ids <;> rfl

theorem isUnit_iff (f : VerbForm) : f.isUnit = true ↔ f = unitVerb := by
  cases f <;> try simp [isUnit, kind, VerbKind.isUnit]
  case defaultTypeFilter ids => cases ids <;> simp

theorem isSelector_of_isUnit {f : VerbForm} (h : f.isUnit = true) : f.isSelector = true := by
  rw [(isUnit_iff f).mp h]
  rfl

/-- A selector that is inherited as the same object is a unit verb. -/
theorem isUnit_of_shared {f : VerbForm} (hsel : f.isSelector = true)
    (hclone : f.deriveMethod = .clone) (hnew : f.derivesNewInstance = false) :
    f.isUnit = true := by
  cases f with
  | unitVerb => rfl
  | _ => simp_all [isSelector, kind, VerbKind.isSelector, deriveMethod, derivesNewInstance]

/-- Adding a verb keeps verbs and their order. -/
theorem addVerb_sublist (f : VerbForm) (existing : List ParsedVerb) :
    (f.addVerb existing).Sublist existing := by
  cases f <;> first | exact List.filter_sublist | exact List.Sublist.refl _

/-- No verb drops a unit verb. -/
theorem mem_addVerb_of_isUnit (f : VerbForm) {existing : List ParsedVerb} {v : ParsedVerb}
    (hv : v ∈ existing) (hunit : v.form.isUnit = true) : v ∈ f.addVerb existing := by
  have hform := (isUnit_iff _).mp hunit
  unfold addVerb
  split <;> simp_all [suppressesDefaultTypeFilter, tag]

end VerbForm

/-- `add_verb`: the verbs of a command, added one after the other, and the new one. -/
def addVerb (existing : List ParsedVerb) (new : ParsedVerb) : List ParsedVerb :=
  (existing ++ [new]).foldl (fun updated v => v.form.addVerb updated ++ [v]) []

theorem addVerb_subset (existing : List ParsedVerb) (new : ParsedVerb) :
    addVerb existing new ⊆ existing ++ [new] := by
  unfold addVerb
  induction existing ++ [new] using List.reverseRecOn with
  | nil => exact List.Subset.refl _
  | append_singleton vs v ih =>
    rw [List.foldl_concat]
    exact List.append_subset.mpr
      ⟨List.Subset.trans (List.Subset.trans (v.form.addVerb_sublist _).subset ih)
        (List.subset_append_left _ _), List.subset_append_right _ _⟩

/-- Unit verbs stay in a command. -/
theorem mem_addVerb_of_isUnit {existing : List ParsedVerb} {new v : ParsedVerb}
    (hv : v ∈ existing ++ [new]) (hunit : v.form.isUnit = true) : v ∈ addVerb existing new := by
  unfold addVerb
  generalize existing ++ [new] = verbs at hv ⊢
  induction verbs using List.reverseRecOn with
  | nil => cases hv
  | append_singleton vs w ih =>
    rw [List.foldl_concat, List.mem_append]
    rcases List.mem_append.mp hv with hv | hv
    · exact Or.inl (w.form.mem_addVerb_of_isUnit (ih hv) hunit)
    · exact Or.inr hv

/-! ### Contexts -/

/-- What the parser refuses a query for. -/
inductive ParseError where
  /-- An unknown verb, or arguments its constructor refuses. -/
  | invalidVerb
  /-- `only ephemeral verbs are allowed inside layer blocks`. -/
  | onlyEphemeral
  /-- An ephemeral verb `can only be used inside a layer { } block`. -/
  | outsideLayer
  /-- `nested layer blocks are not allowed`. -/
  | nestedLayer
  /-- `Preamble verb can only be used as the first verb statement in the askl code`. -/
  | preambleNotFirst
  /-- The panic `Expected to have global context`. -/
  | noGlobalContext
  deriving DecidableEq, Repr

/-- The context of one statement.  The global context has no context before it; after
`preamble` the verbs of a statement, and of the statements in its scope, go to the global
context, the alternative. -/
structure ParserContext where
  /-- How many contexts there are before this one. -/
  level : ℕ
  alternative : Bool
  command : List ParsedVerb
  relationshipType : RelationshipType
  defaultSymbolTypes : Option (List ℤ)
  hasRelationshipModifier : Bool
  inheritRelationshipModifier : Bool
  /-- The layer verb whose block this is. -/
  ephOps : Option SelectorId

/-- What the contexts of a query share: the next address, the global context, and the
labels of the operations of each layer block. -/
structure ParserState where
  nextId : ℕ
  global : ParserContext
  layerOps : List (SelectorId × List Text)

/-- `ParserContext::new`. -/
def ParserContext.new : ParserContext where
  level := 0
  alternative := false
  command := []
  relationshipType := ⟨true, false⟩
  defaultSymbolTypes := none
  hasRelationshipModifier := false
  inheritRelationshipModifier := false
  ephOps := none

/-- `Command::derive`: the inherited verbs, new instances taking new addresses. -/
def deriveVerbs (next : ℕ) : List ParsedVerb → ℕ × List ParsedVerb
  | [] => (next, [])
  | v :: vs => match v.form.deriveMethod, v.form.derivesNewInstance with
    | .skip, _ => deriveVerbs next vs
    | .clone, true =>
      ((deriveVerbs (next + 1) vs).1, { v with id := next } :: (deriveVerbs (next + 1) vs).2)
    | .clone, false => ((deriveVerbs next vs).1, v :: (deriveVerbs next vs).2)

namespace ParserState

/-- One address is taken. -/
def fresh (st : ParserState) : ParserState := { st with nextId := st.nextId + 1 }

/-- `ParserContext::derive`. -/
def derive (st : ParserState) (ctx : ParserContext) : ParserState × ParserContext :=
  ({ st with nextId := (deriveVerbs st.nextId ctx.command).1 },
    { level := ctx.level + 1
      alternative := ctx.alternative
      command := (deriveVerbs st.nextId ctx.command).2
      relationshipType := ctx.relationshipType
      defaultSymbolTypes := ctx.defaultSymbolTypes
      hasRelationshipModifier := ctx.inheritRelationshipModifier
      inheritRelationshipModifier := ctx.inheritRelationshipModifier
      ephOps := ctx.ephOps })

end ParserState

namespace ParserContext

/-- Whether the context is that of a layer block. -/
def inLayer (ctx : ParserContext) : Bool := ctx.ephOps.isSome

/-- `set_relationship_type_inherited`. -/
def setRelationshipTypeInherited (ctx : ParserContext) (rel : RelationshipType) :
    ParserContext :=
  { ctx with
    relationshipType := rel
    hasRelationshipModifier := true
    inheritRelationshipModifier := true }

/-- `Command::extend`. -/
def extendVerb (ctx : ParserContext) (v : ParsedVerb) : ParserContext :=
  { ctx with command := addVerb ctx.command v }

end ParserContext

/-- The symbol types a type selector sets for the scopes under it. -/
def defaultTypesOf (symbolTypeId : ℤ) : List ℤ :=
  if symbolTypeId = symbolTypeFunction then [symbolTypeFunction]
  else if symbolTypeId = symbolTypeType then [symbolTypeType]
  else if symbolTypeId = symbolTypeField then [symbolTypeFunction]
  else if symbolTypeId = symbolTypeMacro then [symbolTypeMacro, symbolTypeFunction]
  else if symbolTypeId = symbolTypeModule then [symbolTypeModule, symbolTypeFunction]
  else if symbolTypeId = symbolTypeFile then [symbolTypeFunction, symbolTypeModule]
  else if symbolTypeId = symbolTypeDirectory then [symbolTypeDirectory, symbolTypeFile]
  else [symbolTypeFunction]

/-- `update_context`: the context after a verb, and whether it consumed the verb. -/
def ParsedVerb.updateContext (v : ParsedVerb) (ctx : ParserContext) :
    Except ParseError (ParserContext × Bool) :=
  match v.form with
  | .preambleVerb => match ctx.level with
    | 0 => .error .noGlobalContext
    | 1 => .ok ({ ctx with alternative := true }, true)
    | _ => .error .preambleNotFirst
  | .hasModifier => .ok (ctx.setRelationshipTypeInherited ⟨false, true⟩, true)
  | .refsModifier => .ok (ctx.setRelationshipTypeInherited ⟨true, false⟩, true)
  | .deriveModifier rel inherit => .ok ({ ctx with
      relationshipType := rel
      hasRelationshipModifier := true
      inheritRelationshipModifier := inherit }, true)
  | .typeSelector ty .. => .ok ({ ctx with defaultSymbolTypes := some (defaultTypesOf ty) }, false)
  | .genericFilter (.type ids) true => .ok ({ ctx with
      defaultSymbolTypes := some
        (if ids.contains symbolTypeFunction then ids else ids ++ [symbolTypeFunction]) }, false)
  | .layerVerb =>
    if ctx.inLayer then .error .nestedLayer
    else .ok ({ ctx with ephOps := some v.id }, false)
  | _ => .ok (ctx, false)

/-- `consume` and `extend_verb` on the context they act on. -/
def ParserContext.accept (ctx : ParserContext) (v : ParsedVerb) :
    Except ParseError ParserContext := do
  let r ← v.updateContext ctx
  pure (if r.2 then r.1 else r.1.extendVerb v)

/-! ### The syntax of a query -/

/-- A verb as it is written: one of the verbs, an ephemeral verb with the labels it refers
to, or one that no constructor accepts. -/
inductive WrittenForm where
  | verb (form : VerbForm)
  | ephemeral (labelRefs : List Text)
  | invalid

/-- A written verb and its place. -/
structure WrittenVerb where
  span : Span
  form : WrittenForm

namespace WrittenVerb

/-- Whether a unit verb is made of it: `_` and the ephemeral verbs. -/
def isUnit (w : WrittenVerb) : Bool := match w.form with
  | .verb f => f.isUnit
  | .ephemeral _ => true
  | .invalid => false

/-- Whether it is `layer`. -/
def isLayer (w : WrittenVerb) : Bool := match w.form with
  | .verb f => f.isLayer
  | _ => false

/-- Whether it is `preamble`. -/
def isPreamble (w : WrittenVerb) : Bool := match w.form with
  | .verb f => f.isPreamble
  | _ => false

end WrittenVerb

/-- The constructors of the verbs, with the new address: only `_` and the ephemeral verbs
are allowed inside a layer block, and the ephemeral verbs only there. -/
def newVerb (st : ParserState) (ctx : ParserContext) (w : WrittenVerb) :
    Except ParseError (ParserState × ParsedVerb) :=
  match w.form, ctx.ephOps with
  | .invalid, _ => .error .invalidVerb
  | .ephemeral _, none => .error .outsideLayer
  | .ephemeral labelRefs, some l =>
    .ok ({ st.fresh with layerOps := st.layerOps ++ [(l, labelRefs)] },
      ⟨st.nextId, w.span, .unitVerb⟩)
  | .verb .unitVerb, _ => .ok (st.fresh, ⟨st.nextId, w.span, .unitVerb⟩)
  | .verb _, some _ => .error .onlyEphemeral
  | .verb .directOnlyFilter, none => .error .invalidVerb
  | .verb (.defaultTypeFilter _), none => .error .invalidVerb
  | .verb f, none => .ok (st.fresh, ⟨st.nextId, w.span, f⟩)

/-- `build_verb`, in the context the verb is written in or in the global one. -/
def buildVerb (st : ParserState) (ctx : ParserContext) (w : WrittenVerb) :
    Except ParseError (ParserState × ParserContext) := do
  let r ← newVerb st ctx w
  if ctx.alternative then
    let global ← r.1.global.accept r.2
    pure ({ r.1 with global := global }, ctx)
  else
    let ctx ← ctx.accept r.2
    pure (r.1, ctx)

/-- The verbs of a statement, in source order. -/
def buildVerbs (st : ParserState) (ctx : ParserContext) :
    List WrittenVerb → Except ParseError (ParserState × ParserContext)
  | [] => .ok (st, ctx)
  | w :: ws => do
    let r ← buildVerb st ctx w
    buildVerbs r.1 r.2 ws

mutual

/-- A statement: verbs, with a scope or without. -/
inductive StatementSyntax where
  | verbs (span : Span) (vs : List WrittenVerb)
  | scoped (span : Span) (vs : List WrittenVerb) (scopeSpan : Span) (body : StatementsSyntax)

/-- The statements of a scope or of a query. -/
inductive StatementsSyntax where
  | nil
  | cons (statement : StatementSyntax) (rest : StatementsSyntax)

end

/-! ### Statements -/

/-- A statement of the query: its verbs, and the position of the statement whose scope it
is in. -/
structure BuiltStatement where
  verbs : List ParsedVerb
  span : Span
  relationshipType : RelationshipType
  unnest : Bool
  parent : Option ℕ

namespace ParserState

/-- `extend_verb`. -/
def extendVerb (st : ParserState) (ctx : ParserContext) (v : ParsedVerb) :
    ParserState × ParserContext :=
  if ctx.alternative then ({ st with global := st.global.extendVerb v }, ctx)
  else (st, ctx.extendVerb v)

/-- The filter a statement without a type selector of its own gets from the scope. -/
def addDefaultTypeFilter (st : ParserState) (ctx : ParserContext) (span : Span)
    (types : List ℤ) : ParserState × ParserContext :=
  if types.isEmpty then (st, ctx)
  else st.fresh.extendVerb ctx ⟨st.nextId, span, .defaultTypeFilter types⟩

/-- `ParserContext::command`: a command without a selector gets a unit verb. -/
def takeCommand (st : ParserState) (ctx : ParserContext) (span : Span) :
    ParserState × List ParsedVerb :=
  if ctx.command.any (·.form.isSelector) then (st, ctx.command)
  else (st.fresh, addVerb ctx.command ⟨st.nextId, span, .unitVerb⟩)

/-- The end of a statement. -/
def finishStatement (st : ParserState) (ctx : ParserContext) (span : Span) (types : List ℤ)
    (rel : RelationshipType) (parent : Option ℕ) : ParserState × BuiltStatement :=
  let r := st.addDefaultTypeFilter ctx span types
  let c := r.1.takeCommand r.2 span
  (c.1,
    { verbs := c.2
      span := span
      relationshipType := rel
      unnest := c.2.any (·.form.tag == some .unnest)
      parent := parent })

/-- `build_empty_statement`: the statement of a scope in which none is written. -/
def buildEmptyStatement (st : ParserState) (ctx : ParserContext) (span : Span)
    (parent : Option ℕ) : ParserState × BuiltStatement :=
  let d := st.derive ctx
  let f := d.1.finishStatement d.2 span (d.2.defaultSymbolTypes.getD []) d.2.relationshipType
    parent
  (f.1, { f.2 with unnest := false })

end ParserState

namespace ParserContext

/-- `has_type_selector`. -/
def hasTypeSelector (ctx : ParserContext) : Bool :=
  ctx.command.any (·.form.suppressesDefaultTypeFilter)

/-- The types of the default filter: none for a statement with a type selector. -/
def filteredTypes (ctx : ParserContext) (inherited : Option (List ℤ)) : List ℤ :=
  if ctx.hasTypeSelector then [] else inherited.getD []

/-- The context as its scope starts: without a relationship verb the children may be
related either way, and they are not filtered by type. -/
def enterScope (ctx : ParserContext) : ParserContext :=
  { ctx with
    relationshipType := if ctx.hasRelationshipModifier then ctx.relationshipType else ⟨true, true⟩
    defaultSymbolTypes := some [] }

end ParserContext

mutual

/-- `build_statement`: the statement and those of its scope, in visiting order, the first
at position `pos`.  The scope of a layer block is discarded. -/
def buildStatement (st : ParserState) (ctx : ParserContext) (parent : Option ℕ) (pos : ℕ) :
    StatementSyntax → Except ParseError (ParserState × List BuiltStatement)
  | .verbs span vs => do
    let d := st.derive ctx
    let r ← buildVerbs d.1 d.2 vs
    let f := r.1.finishStatement r.2 span (r.2.filteredTypes d.2.defaultSymbolTypes)
      d.2.relationshipType parent
    pure (f.1, [f.2])
  | .scoped span vs scopeSpan body => do
    let d := st.derive ctx
    let r ← buildVerbs d.1 d.2 vs
    let s ← buildScope r.1 r.2.enterScope scopeSpan pos body
    let f := s.1.finishStatement r.2 span (r.2.filteredTypes d.2.defaultSymbolTypes)
      d.2.relationshipType parent
    pure (f.1, f.2 :: if r.2.inLayer then [] else s.2)

/-- `build_scope` of the statement at position `pos`. -/
def buildScope (st : ParserState) (ctx : ParserContext) (scopeSpan : Span) (pos : ℕ) :
    StatementsSyntax → Except ParseError (ParserState × List BuiltStatement)
  | .nil =>
    let e := st.buildEmptyStatement ctx scopeSpan (some pos)
    pure (e.1, [e.2])
  | .cons s rest => do
    let r ← buildStatement st ctx (some pos) (pos + 1) s
    let rs ← buildStatements r.1 ctx (some pos) (pos + 1 + r.2.length) rest
    pure (rs.1, r.2 ++ rs.2)

/-- The statements of a scope, one after the other. -/
def buildStatements (st : ParserState) (ctx : ParserContext) (parent : Option ℕ) (pos : ℕ) :
    StatementsSyntax → Except ParseError (ParserState × List BuiltStatement)
  | .nil => pure (st, [])
  | .cons s rest => do
    let r ← buildStatement st ctx parent pos s
    let rs ← buildStatements r.1 ctx parent (pos + r.2.length) rest
    pure (rs.1, r.2 ++ rs.2)

end

/-- The statements at the top of a query: each starts from the global context as the
statements before it left it. -/
def buildTopLevel (st : ParserState) (pos : ℕ) :
    StatementsSyntax → Except ParseError (ParserState × List BuiltStatement)
  | .nil => pure (st, [])
  | .cons s rest => do
    let r ← buildStatement st st.global none pos s
    let rs ← buildTopLevel r.1 (pos + r.2.length) rest
    pure (rs.1, r.2 ++ rs.2)

/-- A query that was parsed: its root, which is not visited, and its statements in visiting
order. -/
structure ParsedQuery where
  root : BuiltStatement
  statements : List BuiltStatement
  layerOps : List (SelectorId × List Text)

/-- The state the parser starts from. -/
def ParserState.initial : ParserState := ⟨0, .new, []⟩

/-- `parse`. -/
def parse (whole : Span) (query : StatementsSyntax) : Except ParseError ParsedQuery := do
  let r ← buildTopLevel .initial 0 query
  let c := r.1.takeCommand r.1.global whole
  pure ⟨⟨c.2, whole, ⟨true, false⟩, false, none⟩, r.2, c.1.layerOps⟩

/-! ### Commands -/

/-- The verb the executor sees, with the labels of its layer block. -/
def ParsedVerb.verb (layerOps : List (SelectorId × List Text)) (v : ParsedVerb) : Verb :=
  ⟨v.id, v.span, v.form.kind ((layerOps.filter (·.1 == v.id)).flatMap (·.2))⟩

/-- The command of a statement. -/
def BuiltStatement.command (layerOps : List (SelectorId × List Text)) (b : BuiltStatement) :
    Command :=
  ⟨b.verbs.map (·.verb layerOps), b.span⟩

/-- The commands of the statements the executor visits. -/
def ParsedQuery.commands (q : ParsedQuery) : List Command :=
  q.statements.map (·.command q.layerOps)

/-- The commands of the whole tree, the root's first. -/
def ParsedQuery.treeCommands (q : ParsedQuery) : List Command :=
  q.root.command q.layerOps :: q.commands

/-- The selectors of a statement. -/
def BuiltStatement.selectors (b : BuiltStatement) : List ParsedVerb :=
  b.verbs.filter (·.form.isSelector)

theorem BuiltStatement.selectors_command (layerOps : List (SelectorId × List Text))
    (b : BuiltStatement) :
    (b.command layerOps).selectors = b.selectors.map (·.verb layerOps) := by
  simp only [Command.selectors, BuiltStatement.command, BuiltStatement.selectors,
    List.filter_map]
  congr 1
  refine List.filter_congr fun v _ => ?_
  simp [ParsedVerb.verb]

/-! ### What a verb does -/

open Fallible

/-- What `update_context` does: the command stays, a unit verb is not consumed, and only
`preamble`, which is refused in the global context, and `layer` set what the later verbs
depend on. -/
structure ParsedVerb.Updates (v : ParsedVerb) (ctx : ParserContext)
    (r : ParserContext × Bool) : Prop where
  command : r.1.command = ctx.command
  level : r.1.level = ctx.level
  not_consumed : v.form.isUnit = true → r.2 = false
  alternative : r.1.alternative = (ctx.alternative || v.form.isPreamble)
  inLayer : r.1.inLayer = (ctx.inLayer || v.form.isLayer)
  level_ne : v.form.isPreamble = true → ctx.level ≠ 0

/-- The verbs that change only what the scopes under them inherit. -/
theorem ParsedVerb.Updates.of_kept {v : ParsedVerb} {ctx : ParserContext}
    {r : ParserContext × Bool} (hcmd : r.1.command = ctx.command) (hlevel : r.1.level = ctx.level)
    (halt : r.1.alternative = ctx.alternative) (hops : r.1.ephOps = ctx.ephOps)
    (hnot : v.form.isUnit = true → r.2 = false) (hpre : v.form.isPreamble = false)
    (hlayer : v.form.isLayer = false) : v.Updates ctx r where
  command := hcmd
  level := hlevel
  not_consumed := hnot
  alternative := by simp [halt, hpre]
  inLayer := by simp [ParserContext.inLayer, hops, hlayer]
  level_ne := by simp [hpre]

theorem updateContext_ok {v : ParsedVerb} {ctx : ParserContext} {r : ParserContext × Bool}
    (h : v.updateContext ctx = .ok r) : v.Updates ctx r := by
  obtain ⟨id, span, form⟩ := v
  cases form with
  | preambleVerb =>
    simp only [ParsedVerb.updateContext] at h
    split at h
    · cases h
    · next hlevel =>
      obtain rfl := Except.ok.inj h
      exact ⟨rfl, rfl, fun h => absurd ((VerbForm.isUnit_iff _).mp h) (by simp),
        by simp [VerbForm.isPreamble],
        by simp [ParserContext.inLayer, VerbForm.isLayer], fun _ => by omega⟩
    · cases h
  | layerVerb =>
    simp only [ParsedVerb.updateContext] at h
    split at h
    · cases h
    · obtain rfl := Except.ok.inj h
      exact ⟨rfl, rfl, fun _ => rfl, by simp [VerbForm.isPreamble],
        by simp [ParserContext.inLayer, VerbForm.isLayer], by simp [VerbForm.isPreamble]⟩
  | genericFilter kind inherit =>
    cases kind <;> cases inherit <;> obtain rfl := Except.ok.inj h <;>
      exact .of_kept rfl rfl rfl rfl (fun _ => rfl) rfl rfl
  | hasModifier =>
    obtain rfl := Except.ok.inj h
    exact .of_kept rfl rfl rfl rfl (fun h => absurd ((VerbForm.isUnit_iff _).mp h) (by simp))
      rfl rfl
  | refsModifier =>
    obtain rfl := Except.ok.inj h
    exact .of_kept rfl rfl rfl rfl (fun h => absurd ((VerbForm.isUnit_iff _).mp h) (by simp))
      rfl rfl
  | deriveModifier rel inherit =>
    obtain rfl := Except.ok.inj h
    exact .of_kept rfl rfl rfl rfl (fun h => absurd ((VerbForm.isUnit_iff _).mp h) (by simp))
      rfl rfl
  | defaultTypeFilter ids =>
    obtain rfl := Except.ok.inj h
    exact .of_kept rfl rfl rfl rfl (fun _ => rfl) rfl rfl
  | _ =>
    obtain rfl := Except.ok.inj h
    exact .of_kept rfl rfl rfl rfl (fun _ => rfl) rfl rfl

/-- What a context does with a verb: its command keeps its verbs and gets the verb, or
loses some of them, but no unit verb. -/
structure ParsedVerb.Accepted (v : ParsedVerb) (ctx ctx' : ParserContext) : Prop where
  subset : ctx'.command ⊆ ctx.command ++ [v]
  units : ∀ u ∈ ctx.command ++ [v], u.form.isUnit = true → u ∈ ctx'.command
  level : ctx'.level = ctx.level
  alternative : ctx'.alternative = (ctx.alternative || v.form.isPreamble)
  inLayer : ctx'.inLayer = (ctx.inLayer || v.form.isLayer)
  level_ne : v.form.isPreamble = true → ctx.level ≠ 0

theorem accept_ok {v : ParsedVerb} {ctx ctx' : ParserContext} (h : ctx.accept v = .ok ctx') :
    v.Accepted ctx ctx' := by
  obtain ⟨⟨ctx₁, consumed⟩, hupd, h⟩ := bind_eq_ok.mp h
  obtain ⟨hcmd, hlevel, hnot, halt, hlayer, hne⟩ := updateContext_ok hupd
  simp only at hcmd hlevel hnot halt hlayer
  obtain rfl := pure_eq_ok.mp h
  cases consumed with
  | true =>
    refine ⟨?_, fun u hu hunit => ?_, hlevel, halt, hlayer, hne⟩
    · rw [if_pos rfl, hcmd]
      exact List.subset_append_left _ _
    · rw [if_pos rfl, hcmd]
      rcases List.mem_append.mp hu with hu | hu
      · exact hu
      · obtain rfl := List.mem_singleton.mp hu
        cases hnot hunit
  | false =>
    refine ⟨?_, fun u hu hunit => ?_, hlevel, halt, hlayer, hne⟩
    · rw [← hcmd]
      exact addVerb_subset _ _
    · rw [← hcmd] at hu
      exact mem_addVerb_of_isUnit hu hunit

/-- A new verb takes the next address; nothing else of the parser's state that the verbs
depend on changes. -/
structure WrittenVerb.New (w : WrittenVerb) (st st' : ParserState) (v : ParsedVerb) : Prop where
  id : v.id = st.nextId
  nextId : st'.nextId = st.nextId + 1
  global : st'.global = st.global
  isUnit : v.form.isUnit = w.isUnit
  isLayer : v.form.isLayer = w.isLayer
  isPreamble : v.form.isPreamble = w.isPreamble

theorem newVerb_ok {st : ParserState} {ctx : ParserContext} {w : WrittenVerb}
    {r : ParserState × ParsedVerb} (h : newVerb st ctx w = .ok r) : w.New st r.1 r.2 := by
  obtain ⟨span, form⟩ := w
  unfold newVerb at h
  split at h
  all_goals first | contradiction | obtain rfl := Except.ok.inj h
  all_goals simp_all only
  all_goals exact ⟨rfl, rfl, rfl, rfl, rfl, rfl⟩

/-- **A verb is consumed by, or extends the command of, its own context or, after
`preamble`, the global one.** -/
theorem buildVerb_ok {st st' : ParserState} {ctx ctx' : ParserContext} {w : WrittenVerb}
    (h : buildVerb st ctx w = .ok (st', ctx')) :
    ∃ v st₁, w.New st st₁ v ∧ st'.nextId = st₁.nextId ∧
      (ctx.alternative = true ∧ ctx' = ctx ∧ v.Accepted st.global st'.global ∨
        ctx.alternative = false ∧ st'.global = st.global ∧ v.Accepted ctx ctx') := by
  obtain ⟨⟨st₁, v⟩, hnew, h⟩ := bind_eq_ok.mp h
  have hv := newVerb_ok hnew
  simp only at h hv
  cases halt : ctx.alternative with
  | true =>
    rw [halt, if_pos rfl] at h
    obtain ⟨g, hg, h⟩ := bind_eq_ok.mp h
    obtain ⟨rfl, rfl⟩ := Prod.mk.inj (pure_eq_ok.mp h)
    refine ⟨v, st₁, hv, rfl, Or.inl ⟨rfl, rfl, ?_⟩⟩
    rw [← hv.global]
    exact accept_ok hg
  | false =>
    rw [halt, if_neg Bool.false_ne_true] at h
    obtain ⟨c, hc, h⟩ := bind_eq_ok.mp h
    obtain ⟨rfl, rfl⟩ := Prod.mk.inj (pure_eq_ok.mp h)
    exact ⟨v, st₁, hv, rfl, Or.inr ⟨rfl, hv.global, accept_ok hc⟩⟩

/-! ### The stages of a statement -/

/-- A statement without a scope. -/
theorem buildStatement_verbs_ok {st st' : ParserState} {ctx : ParserContext}
    {parent : Option ℕ} {pos : ℕ} {span : Span} {vs : List WrittenVerb}
    {out : List BuiltStatement}
    (h : buildStatement st ctx parent pos (.verbs span vs) = .ok (st', out)) :
    ∃ st₁ sub types rel,
      buildVerbs (st.derive ctx).1 (st.derive ctx).2 vs = .ok (st₁, sub) ∧
      st' = (st₁.finishStatement sub span types rel parent).1 ∧
      out = [(st₁.finishStatement sub span types rel parent).2] := by
  rw [buildStatement] at h
  obtain ⟨⟨st₁, sub⟩, hverbs, h⟩ := bind_eq_ok.mp h
  obtain ⟨rfl, rfl⟩ := Prod.mk.inj (pure_eq_ok.mp h)
  exact ⟨st₁, sub, _, _, hverbs, rfl, rfl⟩

/-- A statement with a scope. -/
theorem buildStatement_scoped_ok {st st' : ParserState} {ctx : ParserContext}
    {parent : Option ℕ} {pos : ℕ} {span scopeSpan : Span} {vs : List WrittenVerb}
    {body : StatementsSyntax} {out : List BuiltStatement}
    (h : buildStatement st ctx parent pos (.scoped span vs scopeSpan body) = .ok (st', out)) :
    ∃ st₁ sub st₂ children types rel,
      buildVerbs (st.derive ctx).1 (st.derive ctx).2 vs = .ok (st₁, sub) ∧
      buildScope st₁ sub.enterScope scopeSpan pos body = .ok (st₂, children) ∧
      st' = (st₂.finishStatement sub span types rel parent).1 ∧
      out = (st₂.finishStatement sub span types rel parent).2 ::
        if sub.inLayer then [] else children := by
  rw [buildStatement] at h
  obtain ⟨⟨st₁, sub⟩, hverbs, h⟩ := bind_eq_ok.mp h
  obtain ⟨⟨st₂, children⟩, hscope, h⟩ := bind_eq_ok.mp h
  obtain ⟨rfl, rfl⟩ := Prod.mk.inj (pure_eq_ok.mp h)
  exact ⟨st₁, sub, st₂, children, _, _, hverbs, hscope, rfl, rfl⟩

/-- A scope with statements: the first of them, and the others after it. -/
theorem buildScope_cons_ok {st st' : ParserState} {ctx : ParserContext} {scopeSpan : Span}
    {pos : ℕ} {s : StatementSyntax} {rest : StatementsSyntax} {out : List BuiltStatement}
    (h : buildScope st ctx scopeSpan pos (.cons s rest) = .ok (st', out)) :
    ∃ st₁ first others, buildStatement st ctx (some pos) (pos + 1) s = .ok (st₁, first) ∧
      buildStatements st₁ ctx (some pos) (pos + 1 + first.length) rest = .ok (st', others) ∧
      out = first ++ others := by
  rw [buildScope] at h
  obtain ⟨⟨st₁, first⟩, hs, h⟩ := bind_eq_ok.mp h
  obtain ⟨⟨st₂, others⟩, hrest, h⟩ := bind_eq_ok.mp h
  obtain ⟨rfl, rfl⟩ := Prod.mk.inj (pure_eq_ok.mp h)
  exact ⟨st₁, first, others, hs, hrest, rfl⟩

/-- The statements of a scope: one, and the others after it. -/
theorem buildStatements_cons_ok {st st' : ParserState} {ctx : ParserContext}
    {parent : Option ℕ} {pos : ℕ} {s : StatementSyntax} {rest : StatementsSyntax}
    {out : List BuiltStatement}
    (h : buildStatements st ctx parent pos (.cons s rest) = .ok (st', out)) :
    ∃ st₁ first others, buildStatement st ctx parent pos s = .ok (st₁, first) ∧
      buildStatements st₁ ctx parent (pos + first.length) rest = .ok (st', others) ∧
      out = first ++ others := by
  rw [buildStatements] at h
  obtain ⟨⟨st₁, first⟩, hs, h⟩ := bind_eq_ok.mp h
  obtain ⟨⟨st₂, others⟩, hrest, h⟩ := bind_eq_ok.mp h
  obtain ⟨rfl, rfl⟩ := Prod.mk.inj (pure_eq_ok.mp h)
  exact ⟨st₁, first, others, hs, hrest, rfl⟩

/-- The statements at the top: one, from the global context, and the others after it. -/
theorem buildTopLevel_cons_ok {st st' : ParserState} {pos : ℕ} {s : StatementSyntax}
    {rest : StatementsSyntax} {out : List BuiltStatement}
    (h : buildTopLevel st pos (.cons s rest) = .ok (st', out)) :
    ∃ st₁ first others, buildStatement st st.global none pos s = .ok (st₁, first) ∧
      buildTopLevel st₁ (pos + first.length) rest = .ok (st', others) ∧
      out = first ++ others := by
  rw [buildTopLevel] at h
  obtain ⟨⟨st₁, first⟩, hs, h⟩ := bind_eq_ok.mp h
  obtain ⟨⟨st₂, others⟩, hrest, h⟩ := bind_eq_ok.mp h
  obtain ⟨rfl, rfl⟩ := Prod.mk.inj (pure_eq_ok.mp h)
  exact ⟨st₁, first, others, hs, hrest, rfl⟩

end Askl
