import Askl.Query.SelectorSharing
import Askl.Query.VerbAccumulation

/-!
# Lexical scope

The parser keeps a mutable context for each statement, derives one from another, and lets the
verbs after `preamble` change the context of the whole query.  What a statement ends up with is
nevertheless a matter of its place alone: of the verbs it writes itself, of those that the
statements around it write, and of the preambles of the statements before.

## Main definitions

* `commandForms`, `scopeRelation`, `defaultTypes` — what a place has from the verbs written
  around it.
* `Place`, `Place.face` — a place of a query, and the statement that stands there.
* `StatementsSyntax.topPlaces` — the places of a query, in visiting order.
* `ParserContext.Opens`, `ParserContext.Within` — a context knows the verbs written around it.

## Main results

* `ParserContext.Within.accept`, `ParserContext.Opens.accept` — one verb.
* `faces_buildStatement` — a statement and those of its scope, along the syntax.
* `faces_of_parse` — **what the statements of a query are.**
-/

namespace Askl

open Replacing Fallible

/-! ### What a verb stands for -/

namespace VerbForm

/-- Whether a context consumes the verb, which then joins no command. -/
def isConsumed : VerbForm → Bool
  | preambleVerb | hasModifier | refsModifier | deriveModifier .. => true
  | _ => false

/-- The relation a verb sets for the statements of the scope, and whether further scopes keep
it. -/
def relation : VerbForm → Option (RelationshipType × Bool)
  | hasModifier => some (⟨false, true⟩, true)
  | refsModifier => some (⟨true, false⟩, true)
  | deriveModifier rel inherit => some (rel, inherit)
  | _ => none

/-- The symbol types a verb sets for statements without a type selector. -/
def defaultTypes : VerbForm → Option (List ℤ)
  | typeSelector ty .. => some (defaultTypesOf ty)
  | genericFilter (.type ids) true =>
    some (if ids.contains symbolTypeFunction then ids else ids ++ [symbolTypeFunction])
  | _ => none

/-- Whether a scope hands the verb down. -/
def isInherited (f : VerbForm) : Bool := f.deriveMethod == .clone

end VerbForm

/-- The verb that is made of a written one. -/
def WrittenVerb.resolved (w : WrittenVerb) : Option VerbForm := match w.form with
  | .verb f => some f
  | .ephemeral _ => some .unitVerb
  | .invalid => none

/-- The verbs that are made of written ones. -/
def formsOf (ws : List WrittenVerb) : List VerbForm := ws.filterMap (·.resolved)

/-! ### What a place has from the verbs around it -/

/-- The verbs that join the command. -/
def joining (own : List VerbForm) : List VerbForm := own.filter fun f => !f.isConsumed

/-- The verbs written around a place that join a command, the outermost first; `above` has the
innermost ones first and the global ones last. -/
def aboveForms : List (List VerbForm) → List VerbForm
  | [] => []
  | own :: above => aboveForms above ++ joining own

/-- The command at a place: of the verbs written around it those that are handed down and that
no later verb replaces, and of its own verbs those that no later one replaces. -/
def commandForms (above : List (List VerbForm)) (own : List VerbForm) : List VerbForm :=
  (unreplaced VerbForm.replaces (aboveForms above)).filter
      (fun f => f.isInherited && !(joining own).any (·.replaces f)) ++
    unreplaced VerbForm.replaces (joining own)

/-- The last relation that some verbs set. -/
def lastRelation (own : List VerbForm) : Option (RelationshipType × Bool) :=
  (own.filterMap (·.relation)).getLast?

/-- The relation that further scopes keep: the innermost one that is set, if it is inherited. -/
def handedRelation (above : List (List VerbForm)) : Option RelationshipType :=
  (above.findSome? lastRelation).bind fun m => if m.2 then some m.1 else none

/-- How the statements directly inside are related to the one around them. -/
def scopeRelation : List (List VerbForm) → RelationshipType
  | [] => ⟨true, true⟩
  | [globals] => ((lastRelation globals).map (·.1)).getD ⟨true, false⟩
  | own :: above =>
    (((lastRelation own).map (·.1)).or (handedRelation above)).getD ⟨true, true⟩

/-- The last symbol types that some verbs set. -/
def lastTypes (own : List VerbForm) : Option (List ℤ) :=
  (own.filterMap (·.defaultTypes)).getLast?

/-- The types of the statements inside that select none: only the global verbs set any. -/
def defaultTypes : List (List VerbForm) → List ℤ
  | [globals] => (lastTypes globals).getD []
  | _ => []

/-- Whether there is a layer block around a place. -/
def layered (above : List (List VerbForm)) : Bool := above.any fun own => own.any (·.isLayer)

/-! ### Places -/

/-- A place of a query: the verbs written around it, its own verbs, whether it has come to its
preamble, and where it is. -/
structure Place where
  above : List (List VerbForm)
  own : List VerbForm
  preamble : Bool
  span : Span
  parent : Option ℕ

/-- What a statement is, apart from the addresses of its verbs. -/
structure StatementFace where
  forms : List VerbForm
  span : Span
  relationshipType : RelationshipType
  unnest : Bool
  parent : Option ℕ

def BuiltStatement.face (b : BuiltStatement) : StatementFace :=
  ⟨b.verbs.map (·.form), b.span, b.relationshipType, b.unnest, b.parent⟩

namespace Place

/-- The filter of a statement that selects no types. -/
def typeFilter (p : Place) : List VerbForm :=
  if p.preamble || (commandForms p.above p.own).any (·.suppressesDefaultTypeFilter) ||
    (defaultTypes p.above).isEmpty then [] else [.defaultTypeFilter (defaultTypes p.above)]

/-- The verbs of the statement at a place: one without a selector gets a unit verb. -/
def forms (p : Place) : List VerbForm :=
  commandForms p.above p.own ++ p.typeFilter ++
    if (commandForms p.above p.own).any (·.isSelector) then [] else [.unitVerb]

/-- The statement at a place. -/
def face (p : Place) : StatementFace :=
  ⟨p.forms, p.span, scopeRelation p.above, p.forms.any (·.tag == some .unnest), p.parent⟩

end Place

mutual

/-- The places of a statement and its scope, in visiting order, the first at position `pos`;
the statements of a layer block have none. -/
def StatementSyntax.places (above : List (List VerbForm)) (alternative : Bool)
    (parent : Option ℕ) (pos : ℕ) : StatementSyntax → List Place
  | .verbs span vs =>
    [⟨above, formsOf (ownVerbs alternative vs), alternative || vs.any (·.isPreamble), span, parent⟩]
  | .scoped span vs scopeSpan body =>
    let own := formsOf (ownVerbs alternative vs)
    let alternative := alternative || vs.any (·.isPreamble)
    ⟨above, own, alternative, span, parent⟩ ::
      if layered (own :: above) then []
      else body.scopePlaces (own :: above) alternative scopeSpan pos

/-- The places of the scope of the statement at position `pos`; an empty scope has one. -/
def StatementsSyntax.scopePlaces (above : List (List VerbForm)) (alternative : Bool)
    (scopeSpan : Span) (pos : ℕ) : StatementsSyntax → List Place
  | .nil => [⟨above, [], alternative, scopeSpan, some pos⟩]
  | .cons s rest =>
    let first := s.places above alternative (some pos) (pos + 1)
    first ++ rest.places above alternative (some pos) (pos + 1 + first.length)

/-- The places of statements, one after the other. -/
def StatementsSyntax.places (above : List (List VerbForm)) (alternative : Bool)
    (parent : Option ℕ) (pos : ℕ) : StatementsSyntax → List Place
  | .nil => []
  | .cons s rest =>
    let first := s.places above alternative parent pos
    first ++ rest.places above alternative parent (pos + first.length)

end

/-- The places at the top of a query: around each are the preambles of the statements
before it. -/
def StatementsSyntax.topPlaces (globals : List VerbForm) (pos : ℕ) : StatementsSyntax → List Place
  | .nil => []
  | .cons s rest =>
    let first := s.places [globals] false none pos
    first ++ rest.topPlaces (globals ++ formsOf (s.globalVerbs false)) (pos + first.length)

/-! ### Lists that grow -/

theorem joining_concat (own : List VerbForm) (f : VerbForm) :
    joining (own ++ [f]) = joining own ++ if f.isConsumed then [] else [f] := by
  cases hf : f.isConsumed <;> simp [joining, List.filter_append, hf]

theorem lastRelation_concat (own : List VerbForm) (f : VerbForm) :
    lastRelation (own ++ [f]) = f.relation.or (lastRelation own) := by
  rw [lastRelation, List.filterMap_append]
  cases hf : f.relation <;> simp [hf, lastRelation]

theorem lastTypes_concat (own : List VerbForm) (f : VerbForm) :
    lastTypes (own ++ [f]) = f.defaultTypes.or (lastTypes own) := by
  rw [lastTypes, List.filterMap_append]
  cases hf : f.defaultTypes <;> simp [hf, lastTypes]

theorem handedRelation_cons (own : List VerbForm) (above : List (List VerbForm)) :
    handedRelation (own :: above) = match lastRelation own with
      | some m => if m.2 then some m.1 else none
      | none => handedRelation above := by
  rw [handedRelation, List.findSome?_cons]
  cases lastRelation own <;> rfl

theorem formsOf_append (vs ws : List WrittenVerb) :
    formsOf (vs ++ ws) = formsOf vs ++ formsOf ws :=
  List.filterMap_append

/-- One more verb drops what it replaces, unless it is consumed. -/
theorem commandForms_concat (above : List (List VerbForm)) (own : List VerbForm) (f : VerbForm) :
    commandForms above (own ++ [f]) = if f.isConsumed then commandForms above own
      else (commandForms above own).filter (fun g => !f.replaces g) ++ [f] := by
  unfold commandForms
  rw [joining_concat]
  cases f.isConsumed with
  | true => simp
  | false =>
    rw [if_neg Bool.false_ne_true, if_neg Bool.false_ne_true, unreplaced_append,
      unreplaced_singleton, List.filter_append, List.filter_filter, List.append_assoc]
    simp only [List.any_append, List.any_cons, List.any_nil, Bool.or_false, Bool.not_or]
    congr 2
    funext g
    ac_rfl

/-- A scope hands down what is inherited of the command. -/
theorem inherited_commandForms (above : List (List VerbForm)) (own : List VerbForm) :
    (commandForms above own).filter (·.isInherited) =
      (unreplaced VerbForm.replaces (aboveForms (own :: above))).filter (·.isInherited) := by
  rw [commandForms, aboveForms, unreplaced_append, List.filter_append, List.filter_append,
    List.filter_filter, List.filter_filter]
  congr 2
  funext g
  cases g.isInherited <;> simp

theorem commandForms_nil (above : List (List VerbForm)) :
    commandForms above [] =
      (unreplaced VerbForm.replaces (aboveForms above)).filter (·.isInherited) := by
  simp [commandForms, joining, unreplaced]

/-! ### One verb -/

/-- What a context does with a verb, in terms of what the verb stands for. -/
structure VerbForm.Shapes (f : VerbForm) (ctx ctx' : ParserContext) : Prop where
  built : BuiltVerbs ctx.command → BuiltVerbs ctx'.command
  forms : BuiltVerbs ctx.command → ctx'.command.map (·.form) =
    if f.isConsumed then ctx.command.map (·.form)
    else (ctx.command.map (·.form)).filter (fun g => !f.replaces g) ++ [f]
  types : ctx'.defaultSymbolTypes = f.defaultTypes.or ctx.defaultSymbolTypes
  relationshipType : ctx'.relationshipType = (f.relation.map (·.1)).getD ctx.relationshipType
  hasRelation : ctx'.hasRelationshipModifier = (f.relation.isSome || ctx.hasRelationshipModifier)
  inherits : ctx'.inheritRelationshipModifier =
    (f.relation.map (·.2)).getD ctx.inheritRelationshipModifier
  level : ctx'.level = ctx.level
  alternative : ctx'.alternative = (ctx.alternative || f.isPreamble)
  inLayer : ctx'.inLayer = (ctx.inLayer || f.isLayer)
  level_ne : f.isPreamble = true → ctx.level ≠ 0

/-- What `update_context` sets. -/
structure VerbForm.Sets (f : VerbForm) (ctx : ParserContext) (r : ParserContext × Bool) :
    Prop where
  consumed : r.2 = f.isConsumed
  types : r.1.defaultSymbolTypes = f.defaultTypes.or ctx.defaultSymbolTypes
  relationshipType : r.1.relationshipType = (f.relation.map (·.1)).getD ctx.relationshipType
  hasRelation : r.1.hasRelationshipModifier = (f.relation.isSome || ctx.hasRelationshipModifier)
  inherits : r.1.inheritRelationshipModifier =
    (f.relation.map (·.2)).getD ctx.inheritRelationshipModifier

theorem sets_of_updateContext {v : ParsedVerb} {ctx : ParserContext} {r : ParserContext × Bool}
    (h : v.updateContext ctx = .ok r) : v.form.Sets ctx r := by
  obtain ⟨id, span, form⟩ := v
  cases form with
  | preambleVerb =>
    simp only [ParsedVerb.updateContext] at h
    split at h
    · cases h
    · obtain rfl := Except.ok.inj h
      exact ⟨rfl, rfl, rfl, rfl, rfl⟩
    · cases h
  | layerVerb =>
    simp only [ParsedVerb.updateContext] at h
    split at h
    · cases h
    · obtain rfl := Except.ok.inj h
      exact ⟨rfl, rfl, rfl, rfl, rfl⟩
  | genericFilter kind inherit =>
    cases kind <;> cases inherit <;> obtain rfl := Except.ok.inj h <;>
      exact ⟨rfl, rfl, rfl, rfl, rfl⟩
  | _ =>
    obtain rfl := Except.ok.inj h
    exact ⟨rfl, rfl, rfl, rfl, rfl⟩

/-- The verbs of a command that another one is added to. -/
theorem forms_addVerb {verbs : List ParsedVerb} (h : BuiltVerbs verbs) (v : ParsedVerb) :
    (addVerb verbs v).map (·.form) =
      (verbs.map (·.form)).filter (fun g => !v.form.replaces g) ++ [v.form] := by
  have hadd : addVerb verbs v = verbs.filter (fun w => !v.replaces w) ++ [v] :=
    (h.accumulates []).addVerb_eq v
  rw [hadd, List.map_append, List.filter_map]
  rfl

/-- **What a context does with a verb.** -/
theorem shapes_of_accept {v : ParsedVerb} {ctx ctx' : ParserContext}
    (h : ctx.accept v = .ok ctx') : v.form.Shapes ctx ctx' := by
  have haccepted := accept_ok h
  have hbuilt : BuiltVerbs ctx.command → BuiltVerbs ctx'.command :=
    fun hctx => builtVerbs_of_accept hctx h
  obtain ⟨⟨ctx₁, consumed⟩, hupdate, h⟩ := bind_eq_ok.mp h
  have hsets := sets_of_updateContext hupdate
  have hcommand : ctx₁.command = ctx.command := (updateContext_ok hupdate).command
  obtain ⟨hconsumed, htypes, hrel, hhas, hinherits⟩ := hsets
  dsimp only at hconsumed htypes hrel hhas hinherits
  obtain rfl := pure_eq_ok.mp h
  subst hconsumed
  refine ⟨hbuilt, fun hctx => ?_, ?_, ?_, ?_, ?_, haccepted.level, haccepted.alternative,
    haccepted.inLayer, haccepted.level_ne⟩
  · dsimp only
    split
    · rw [hcommand]
    · show (addVerb ctx₁.command v).map (·.form) = _
      rw [hcommand, forms_addVerb hctx]
  · rw [← htypes]
    dsimp only
    split <;> rfl
  · rw [← hrel]
    dsimp only
    split <;> rfl
  · rw [← hhas]
    dsimp only
    split <;> rfl
  · rw [← hinherits]
    dsimp only
    split <;> rfl

/-- A new verb is the one that was written, and nothing but an address is taken. -/
theorem newVerb_resolved {st st' : ParserState} {ctx : ParserContext} {w : WrittenVerb}
    {v : ParsedVerb} (h : newVerb st ctx w = .ok (st', v)) : w.resolved = some v.form := by
  obtain ⟨span, form⟩ := w
  unfold newVerb at h
  split at h
  all_goals first | contradiction | obtain ⟨rfl, rfl⟩ := Prod.mk.inj (Except.ok.inj h)
  all_goals simp_all only
  all_goals rfl

/-! ### Contexts -/

/-- A context from which the statements of a scope start: it knows the verbs written around
them. -/
structure ParserContext.Opens (ctx : ParserContext) (above : List (List VerbForm)) : Prop where
  built : BuiltVerbs ctx.command
  handed : (ctx.command.map (·.form)).filter (·.isInherited) =
    (unreplaced VerbForm.replaces (aboveForms above)).filter (·.isInherited)
  relation : ctx.relationshipType = scopeRelation above
  inherits : handedRelation above =
    if ctx.inheritRelationshipModifier then some ctx.relationshipType else none
  types : ctx.defaultSymbolTypes.getD [] = defaultTypes above
  inLayer : ctx.inLayer = layered above

/-- The context of a statement that has read some of its own verbs. -/
structure ParserContext.Within (ctx : ParserContext) (above : List (List VerbForm))
    (own : List VerbForm) : Prop where
  built : BuiltVerbs ctx.command
  forms : ctx.command.map (·.form) = commandForms above own
  relation : ((lastRelation own).map (·.1)).or (handedRelation above) =
    if ctx.hasRelationshipModifier then some ctx.relationshipType else none
  inherits : handedRelation (own :: above) =
    if ctx.inheritRelationshipModifier then some ctx.relationshipType else none
  inLayer : ctx.inLayer = layered (own :: above)

/-- A derived command has the verbs that are inherited. -/
theorem forms_deriveVerbs (next : ℕ) (parent : List ParsedVerb) :
    (deriveVerbs next parent).2.map (·.form) =
      (parent.map (·.form)).filter (·.isInherited) := by
  induction parent generalizing next with
  | nil => rfl
  | cons v vs ih =>
    rw [deriveVerbs, List.map_cons, List.filter_cons]
    cases hmethod : v.form.deriveMethod with
    | skip =>
      have hinherited : v.form.isInherited = false := by rw [VerbForm.isInherited, hmethod]; rfl
      rw [hinherited, if_neg Bool.false_ne_true]
      exact ih next
    | clone =>
      have hinherited : v.form.isInherited = true := by rw [VerbForm.isInherited, hmethod]; rfl
      rw [hinherited, if_pos rfl]
      cases v.form.derivesNewInstance with
      | true => exact congrArg (v.form :: ·) (ih (next + 1))
      | false => exact congrArg (v.form :: ·) (ih next)

/-- **A statement starts with what its scope hands down.** -/
theorem ParserContext.Opens.derive {ctx : ParserContext} {above : List (List VerbForm)}
    (h : ctx.Opens above) (st : ParserState) : (st.derive ctx).2.Within above [] where
  built := h.built.derive st.nextId
  forms := by
    rw [commandForms_nil, ← h.handed]
    exact forms_deriveVerbs _ _
  relation := h.inherits
  inherits := h.inherits
  inLayer := h.inLayer

/-- **One more verb of a statement.** -/
theorem ParserContext.Within.accept {ctx ctx' : ParserContext} {above : List (List VerbForm)}
    {own : List VerbForm} {f : VerbForm} (h : ctx.Within above own) (hf : f.Shapes ctx ctx') :
    ctx'.Within above (own ++ [f]) where
  built := hf.built h.built
  forms := by rw [hf.forms h.built, h.forms, commandForms_concat]
  relation := by
    rw [lastRelation_concat, hf.hasRelation, hf.relationshipType]
    cases hrel : f.relation with
    | some m => rfl
    | none => simpa using h.relation
  inherits := by
    rw [handedRelation_cons, lastRelation_concat, hf.inherits, hf.relationshipType]
    cases hrel : f.relation with
    | some m => rfl
    | none => simpa [handedRelation_cons] using h.inherits
  inLayer := by
    rw [hf.inLayer, h.inLayer]
    simp [layered, Bool.or_assoc, Bool.or_comm, Bool.or_left_comm]

/-- **One more verb of a preamble.** -/
theorem ParserContext.Opens.accept {ctx ctx' : ParserContext} {globals : List VerbForm}
    {f : VerbForm} (h : ctx.Opens [globals]) (hf : f.Shapes ctx ctx') :
    ctx'.Opens [globals ++ [f]] where
  built := hf.built h.built
  handed := by
    have hhanded := h.handed
    rw [hf.forms h.built]
    simp only [aboveForms, List.nil_append] at hhanded ⊢
    rw [joining_concat]
    cases hconsumed : f.isConsumed with
    | true => simpa using hhanded
    | false =>
      rw [if_neg Bool.false_ne_true, if_neg Bool.false_ne_true, unreplaced_append,
        unreplaced_singleton, List.filter_append, List.filter_append]
      congr 1
      -- what the verb replaces it replaces among the inherited verbs
      rw [List.filter_comm, hhanded, List.filter_comm]
      simp
  relation := by
    rw [hf.relationshipType, h.relation]
    simp only [scopeRelation]
    rw [lastRelation_concat]
    cases f.relation <;> rfl
  inherits := by
    rw [handedRelation_cons, lastRelation_concat, hf.inherits, hf.relationshipType]
    cases hrel : f.relation with
    | some m => rfl
    | none => simpa [handedRelation_cons] using h.inherits
  types := by
    rw [hf.types]
    have htypes := h.types
    simp only [defaultTypes] at htypes ⊢
    rw [lastTypes_concat]
    cases f.defaultTypes with
    | some types => rfl
    | none => exact htypes
  inLayer := by
    rw [hf.inLayer, h.inLayer]
    simp [layered]

/-- **A scope hands down what its statement has read.** -/
theorem ParserContext.Within.enterScope {ctx : ParserContext} {above : List (List VerbForm)}
    {own : List VerbForm} (h : ctx.Within above own) (habove : above ≠ []) :
    ctx.enterScope.Opens (own :: above) where
  built := h.built
  handed := by
    rw [← inherited_commandForms, ← h.forms]
    rfl
  relation := by
    cases above with
    | nil => exact absurd rfl habove
    | cons vs above =>
      rw [scopeRelation, h.relation]
      show (if ctx.hasRelationshipModifier then ctx.relationshipType else _) = _
      split <;> rfl
      simp
  inherits := by
    rw [h.inherits]
    show _ = if ctx.inheritRelationshipModifier then
      some (if ctx.hasRelationshipModifier then ctx.relationshipType else _) else none
    split
    · next hinherit =>
      -- a relation that is kept is one that was set
      have hhas : ctx.hasRelationshipModifier = true := by
        by_contra hnot
        have hrelation := h.relation
        rw [if_neg hnot, Option.or_eq_none_iff] at hrelation
        have hinherits := h.inherits
        rw [if_pos hinherit, handedRelation_cons] at hinherits
        rw [Option.map_eq_none_iff.mp hrelation.1, hrelation.2] at hinherits
        cases hinherits
      rw [if_pos hhas]
    · rfl
  types := by
    cases above with
    | nil => exact absurd rfl habove
    | cons vs above => rfl
  inLayer := h.inLayer

/-! ### The verbs of a statement -/

/-- The global context knows the verbs of the preambles. -/
structure ParserState.Reads (st : ParserState) (globals : List VerbForm) : Prop where
  opens : st.global.Opens [globals]
  level : st.global.level = 0
  alternative : st.global.alternative = false

section Build

variable {st st' : ParserState} {ctx ctx' : ParserContext} {globals own : List VerbForm}
  {above : List (List VerbForm)}

theorem ParserState.Reads.of_global (h : st.Reads globals) (hglobal : st'.global = st.global) :
    st'.Reads globals :=
  ⟨hglobal ▸ h.opens, hglobal ▸ h.level, hglobal ▸ h.alternative⟩

/-- One verb, in its own context or in the global one. -/
theorem ParserState.Reads.buildVerb {w : WrittenVerb} (hst : st.Reads globals)
    (hctx : ctx.Within above own) (h : buildVerb st ctx w = .ok (st', ctx')) :
    st'.Reads (globals ++ formsOf (globalVerbs ctx.alternative [w])) ∧
      ctx'.Within above (own ++ formsOf (ownVerbs ctx.alternative [w])) ∧
      ctx'.alternative = (ctx.alternative || w.isPreamble) := by
  obtain ⟨⟨st₁, v⟩, hnew, h⟩ := bind_eq_ok.mp h
  have hglobal : st₁.global = st.global := (newVerb_ok hnew).global
  have hpreamble : v.form.isPreamble = w.isPreamble := (newVerb_ok hnew).isPreamble
  have hform : formsOf [w] = [v.form] := by
    rw [formsOf, List.filterMap_cons, newVerb_resolved hnew]
    rfl
  dsimp only at h
  cases halternative : ctx.alternative with
  | true =>
    rw [halternative, if_pos rfl] at h
    obtain ⟨global, haccept, h⟩ := bind_eq_ok.mp h
    obtain ⟨rfl, rfl⟩ := Prod.mk.inj (pure_eq_ok.mp h)
    rw [hglobal] at haccept
    have hshapes := shapes_of_accept haccept
    rw [show globalVerbs true [w] = [w] from rfl, show ownVerbs true [w] = [] from rfl, hform]
    refine ⟨⟨hst.opens.accept hshapes, ?_, ?_⟩, ?_, ?_⟩
    · exact hshapes.level.trans hst.level
    · -- in the global context there is no preamble
      show global.alternative = false
      rw [hshapes.alternative, hst.alternative, Bool.false_or, ← Bool.not_eq_true]
      exact fun hpre => hshapes.level_ne hpre hst.level
    · simpa [formsOf] using hctx
    · rw [halternative]
      rfl
  | false =>
    rw [halternative, if_neg Bool.false_ne_true] at h
    obtain ⟨own', haccept, h⟩ := bind_eq_ok.mp h
    obtain ⟨rfl, rfl⟩ := Prod.mk.inj (pure_eq_ok.mp h)
    have hshapes := shapes_of_accept haccept
    rw [show globalVerbs false [w] = [] by simp [globalVerbs],
      show ownVerbs false [w] = [w] by simp [ownVerbs], hform]
    refine ⟨?_, hctx.accept hshapes, ?_⟩
    · simpa [formsOf] using hst.of_global hglobal
    · rw [hshapes.alternative, halternative, hpreamble]

/-- **The verbs of a statement**, by induction over them. -/
theorem ParserState.Reads.buildVerbs {ws : List WrittenVerb} (hst : st.Reads globals)
    (hctx : ctx.Within above own) (h : buildVerbs st ctx ws = .ok (st', ctx')) :
    st'.Reads (globals ++ formsOf (globalVerbs ctx.alternative ws)) ∧
      ctx'.Within above (own ++ formsOf (ownVerbs ctx.alternative ws)) ∧
      ctx'.alternative = (ctx.alternative || ws.any (·.isPreamble)) := by
  induction ws generalizing st ctx globals own with
  | nil =>
    obtain ⟨rfl, rfl⟩ := Prod.mk.inj (Except.ok.inj h)
    simpa [formsOf, globalVerbs, ownVerbs] using ⟨hst, hctx⟩
  | cons w ws ih =>
    obtain ⟨⟨st₁, ctx₁⟩, hw, h⟩ := bind_eq_ok.mp h
    obtain ⟨hst₁, hctx₁, halternative⟩ := hst.buildVerb hctx hw
    obtain ⟨hst', hctx', halternative'⟩ := ih hst₁ hctx₁ h
    rw [halternative] at hst' hctx' halternative'
    refine ⟨?_, ?_, ?_⟩
    · rw [globalVerbs_cons, formsOf_append, ← List.append_assoc]
      exact hst'
    · rw [ownVerbs_cons, formsOf_append, ← List.append_assoc]
      exact hctx'
    · rw [halternative', List.any_cons, Bool.or_assoc]

/-! ### The end of a statement -/

/-- A verb that is not inherited and replaces nothing leaves what the global context hands
down. -/
theorem ParserState.Reads.extendGlobal (hst : st.Reads globals) (v : ParsedVerb)
    (hinherited : v.form.isInherited = false)
    (hreplaces : ∀ g, v.form.replaces g = false) :
    ParserState.Reads { st with global := st.global.extendVerb v } globals where
  opens :=
    { built := hst.opens.built.extend v
      handed := by
        show ((addVerb st.global.command v).map (·.form)).filter (·.isInherited) = _
        rw [forms_addVerb hst.opens.built, ← hst.opens.handed]
        simp [List.filter_append, hinherited, hreplaces]
      relation := hst.opens.relation
      inherits := hst.opens.inherits
      types := hst.opens.types
      inLayer := hst.opens.inLayer }
  level := hst.level
  alternative := hst.alternative

/-- The default type filter and the unit verb go to the end of a command. -/
theorem forms_addVerb_of_not_replaces {verbs : List ParsedVerb} (h : BuiltVerbs verbs)
    {v : ParsedVerb} (hreplaces : ∀ g, v.form.replaces g = false) :
    (addVerb verbs v).map (·.form) = verbs.map (·.form) ++ [v.form] := by
  rw [forms_addVerb h]
  simp [hreplaces]

theorem isSelector_defaultTypeFilter (types : List ℤ) :
    (VerbForm.defaultTypeFilter types).isSelector = false := by
  cases types <;> rfl

/-- The default type filter goes to the command, or after `preamble` to the global one, which
does not hand it down. -/
theorem forms_addDefaultTypeFilter (hst : st.Reads globals) (hctx : ctx.Within above own)
    {inherited : Option (List ℤ)} (htypes : inherited.getD [] = defaultTypes above) (span : Span)
    (parent : Option ℕ) :
    (st.addDefaultTypeFilter ctx span (ctx.filteredTypes inherited)).1.Reads globals ∧
      BuiltVerbs (st.addDefaultTypeFilter ctx span (ctx.filteredTypes inherited)).2.command ∧
      (st.addDefaultTypeFilter ctx span (ctx.filteredTypes inherited)).2.command.map (·.form) =
        commandForms above own ++ Place.typeFilter ⟨above, own, ctx.alternative, span, parent⟩ := by
  have hselects : ctx.hasTypeSelector =
      (commandForms above own).any (·.suppressesDefaultTypeFilter) := by
    rw [← hctx.forms, List.any_map]
    rfl
  unfold ParserContext.filteredTypes ParserState.addDefaultTypeFilter Place.typeFilter
  rw [hselects, htypes]
  dsimp only
  cases hany : (commandForms above own).any (·.suppressesDefaultTypeFilter) with
  | true =>
    rw [if_pos rfl, if_pos List.isEmpty_nil, Bool.or_true, Bool.true_or, if_pos rfl,
      List.append_nil]
    exact ⟨hst, hctx.built, hctx.forms⟩
  | false =>
    rw [if_neg Bool.false_ne_true, Bool.or_false]
    cases hempty : (defaultTypes above).isEmpty with
    | true =>
      rw [if_pos rfl, Bool.or_true, if_pos rfl, List.append_nil]
      exact ⟨hst, hctx.built, hctx.forms⟩
    | false =>
      rw [if_neg Bool.false_ne_true, Bool.or_false]
      unfold ParserState.extendVerb
      cases ctx.alternative with
      | true =>
        rw [if_pos rfl, if_pos rfl, List.append_nil]
        have hfresh : st.fresh.Reads globals := hst.of_global rfl
        exact ⟨hfresh.extendGlobal ⟨st.nextId, span, .defaultTypeFilter (defaultTypes above)⟩ rfl
          fun _ => rfl, hctx.built, hctx.forms⟩
      | false =>
        rw [if_neg Bool.false_ne_true, if_neg Bool.false_ne_true]
        refine ⟨hst.of_global rfl, hctx.built.extend _, ?_⟩
        exact (forms_addVerb_of_not_replaces hctx.built fun _ => rfl).trans
          (congrArg (· ++ _) hctx.forms)

/-- A command without a selector gets a unit verb. -/
theorem forms_takeCommand (st : ParserState) (hbuilt : BuiltVerbs ctx.command) (span : Span) :
    (st.takeCommand ctx span).1.global = st.global ∧
      (st.takeCommand ctx span).2.map (·.form) = ctx.command.map (·.form) ++
        if (ctx.command.map (·.form)).any (·.isSelector) then [] else [.unitVerb] := by
  have hany : (ctx.command.map (·.form)).any (·.isSelector) =
      ctx.command.any (·.form.isSelector) := List.any_map
  unfold ParserState.takeCommand
  rw [hany]
  split
  · exact ⟨rfl, (List.append_nil _).symm⟩
  · exact ⟨rfl, forms_addVerb_of_not_replaces hbuilt fun _ => rfl⟩

/-- **The end of a statement.** -/
theorem face_finishStatement (hst : st.Reads globals) (hctx : ctx.Within above own)
    {inherited : Option (List ℤ)} (htypes : inherited.getD [] = defaultTypes above) (span : Span)
    (parent : Option ℕ) :
    (st.finishStatement ctx span (ctx.filteredTypes inherited) (scopeRelation above) parent).1.Reads
        globals ∧
      (st.finishStatement ctx span (ctx.filteredTypes inherited) (scopeRelation above)
        parent).2.face = Place.face ⟨above, own, ctx.alternative, span, parent⟩ := by
  obtain ⟨hreads, hbuilt, hforms⟩ := forms_addDefaultTypeFilter hst hctx htypes span parent
  unfold ParserState.finishStatement
  generalize st.addDefaultTypeFilter ctx span (ctx.filteredTypes inherited) = filtered
    at hreads hbuilt hforms ⊢
  obtain ⟨hglobal, htaken⟩ := forms_takeCommand filtered.1 hbuilt span
  have hselector : (filtered.2.command.map (·.form)).any (·.isSelector) =
      (commandForms above own).any (·.isSelector) := by
    rw [hforms, List.any_append]
    unfold Place.typeFilter
    split <;> simp [isSelector_defaultTypeFilter]
  rw [hselector, hforms] at htaken
  refine ⟨hreads.of_global hglobal, ?_⟩
  unfold BuiltStatement.face Place.face
  have hunnest : (filtered.1.takeCommand filtered.2 span).2.any (·.form.tag == some .unnest) =
      (Place.forms ⟨above, own, ctx.alternative, span, parent⟩).any
        (·.tag == some .unnest) := by
    rw [Place.forms, ← htaken, List.any_map]
    rfl
  dsimp only
  rw [hunnest, htaken]
  rfl

/-- Without verbs of its own a statement is not unnested. -/
theorem not_unnest_forms_nil (above : List (List VerbForm)) (preamble : Bool) (span : Span)
    (parent : Option ℕ) :
    (Place.forms ⟨above, [], preamble, span, parent⟩).any (·.tag == some .unnest) = false := by
  rw [List.any_eq_false]
  intro f hf htag
  have htag := beq_iff_eq.mp htag
  rcases List.mem_append.mp hf with hf | hf
  · rcases List.mem_append.mp hf with hf | hf
    · -- what tags a statement as unnested is not handed down
      rw [commandForms_nil] at hf
      have hinherited := (List.mem_filter.mp hf).2
      cases f with
      | unnestModifier => cases hinherited
      | typeSelector symbolTypeId filter filterOnly named =>
        rw [VerbForm.tag] at htag
        split at htag <;> cases htag
      | genericFilter kind => cases kind <;> cases htag
      | _ => cases htag
    · unfold Place.typeFilter at hf
      split at hf
      · cases hf
      · obtain rfl := List.mem_singleton.mp hf
        cases htag
  · split at hf
    · cases hf
    · obtain rfl := List.mem_singleton.mp hf
      cases htag

/-- The statement of an empty scope. -/
theorem face_buildEmptyStatement (hst : st.Reads globals) (hctx : ctx.Opens above)
    (htypes : defaultTypes above = []) (span : Span) (parent : Option ℕ) :
    (st.buildEmptyStatement ctx span parent).1.Reads globals ∧
      (st.buildEmptyStatement ctx span parent).2.face =
        Place.face ⟨above, [], ctx.alternative, span, parent⟩ := by
  have hinherited : ctx.defaultSymbolTypes.getD [] = [] := hctx.types.trans htypes
  have hfiltered : (st.derive ctx).2.filteredTypes ctx.defaultSymbolTypes = [] := by
    unfold ParserContext.filteredTypes
    split
    · rfl
    · exact hinherited
  have hderived : (st.derive ctx).1.Reads globals := hst.of_global rfl
  obtain ⟨hreads, hface⟩ := face_finishStatement hderived (hctx.derive st) hctx.types span parent
  unfold ParserState.buildEmptyStatement
  rw [hfiltered, ← hctx.relation] at hreads hface
  show ((st.derive ctx).1.finishStatement (st.derive ctx).2 span
      (ctx.defaultSymbolTypes.getD []) ctx.relationshipType parent).1.Reads globals ∧ _
  rw [hinherited]
  refine ⟨hreads, ?_⟩
  show StatementFace.mk _ _ _ false _ = _
  rw [Place.face, not_unnest_forms_nil]
  rw [Place.face, not_unnest_forms_nil] at hface
  unfold BuiltStatement.face at hface
  rw [StatementFace.mk.injEq] at hface ⊢
  dsimp only
  rw [show (st.derive ctx).2.defaultSymbolTypes = ctx.defaultSymbolTypes from rfl, hinherited]
  exact ⟨hface.1, hface.2.1, hface.2.2.1, rfl, hface.2.2.2.2⟩

end Build

/-! ### The statements of a query -/

mutual

/-- **A statement and those of its scope**, by induction along the syntax. -/
theorem faces_buildStatement : ∀ (s : StatementSyntax) {st st' : ParserState}
    {ctx : ParserContext} {globals : List VerbForm} {above : List (List VerbForm)}
    {parent : Option ℕ} {pos : ℕ} {out : List BuiltStatement},
    st.Reads globals → ctx.Opens above → above ≠ [] →
    buildStatement st ctx parent pos s = .ok (st', out) →
    st'.Reads (globals ++ formsOf (s.globalVerbs ctx.alternative)) ∧
      out.map (·.face) = (s.places above ctx.alternative parent pos).map (·.face)
  | .verbs span vs, st, st', ctx, globals, above, parent, pos, out, hst, hctx, habove, h => by
    rw [buildStatement] at h
    obtain ⟨⟨st₁, sub⟩, hverbs, h⟩ := bind_eq_ok.mp h
    obtain ⟨rfl, rfl⟩ := Prod.mk.inj (pure_eq_ok.mp h)
    have hderived : (st.derive ctx).1.Reads globals := hst.of_global rfl
    obtain ⟨hst₁, hsub, halternative⟩ := hderived.buildVerbs (hctx.derive st) hverbs
    obtain ⟨hst', hface⟩ := face_finishStatement hst₁ hsub hctx.types span parent
    rw [halternative, ← hctx.relation] at hface
    rw [← hctx.relation] at hst'
    exact ⟨hst', congrArg ([·]) hface⟩
  | .scoped span vs scopeSpan body, st, st', ctx, globals, above, parent, pos, out, hst, hctx,
      habove, h => by
    rw [buildStatement] at h
    obtain ⟨⟨st₁, sub⟩, hverbs, h⟩ := bind_eq_ok.mp h
    obtain ⟨⟨st₂, children⟩, hscope, h⟩ := bind_eq_ok.mp h
    obtain ⟨rfl, rfl⟩ := Prod.mk.inj (pure_eq_ok.mp h)
    have hderived : (st.derive ctx).1.Reads globals := hst.of_global rfl
    obtain ⟨hst₁, hsub, halternative⟩ := hderived.buildVerbs (hctx.derive st) hverbs
    rw [List.nil_append, show (st.derive ctx).2.alternative = ctx.alternative from rfl] at hsub
    have hopens := hsub.enterScope habove
    have hnested : ∀ own, defaultTypes (own :: above) = [] := by
      intro own
      cases above with
      | nil => exact absurd rfl habove
      | cons => rfl
    obtain ⟨hst₂, hchildren⟩ :=
      faces_buildScope body hst₁ hopens (List.cons_ne_nil _ _) (hnested _) hscope
    obtain ⟨hst', hface⟩ := face_finishStatement hst₂ hsub hctx.types span parent
    rw [halternative, ← hctx.relation] at hface
    rw [← hctx.relation, List.append_assoc, ← formsOf_append] at hst'
    have halternative : sub.enterScope.alternative =
        (ctx.alternative || vs.any (·.isPreamble)) := halternative
    rw [halternative] at hst' hchildren
    refine ⟨hst', ?_⟩
    rw [List.map_cons, StatementSyntax.places, List.map_cons]
    refine congrArg₂ List.cons hface ?_
    have hlayer : sub.inLayer = _ := hsub.inLayer
    dsimp only
    rw [hlayer]
    cases layered (formsOf (ownVerbs ctx.alternative vs) :: above) with
    | true => rfl
    | false => exact hchildren

/-- The statements of a scope. -/
theorem faces_buildScope : ∀ (body : StatementsSyntax) {st st' : ParserState}
    {ctx : ParserContext} {globals : List VerbForm} {above : List (List VerbForm)} {span : Span}
    {pos : ℕ} {out : List BuiltStatement},
    st.Reads globals → ctx.Opens above → above ≠ [] → defaultTypes above = [] →
    buildScope st ctx span pos body = .ok (st', out) →
    st'.Reads (globals ++ formsOf (body.globalVerbs ctx.alternative)) ∧
      out.map (·.face) = (body.scopePlaces above ctx.alternative span pos).map (·.face)
  | .nil, st, st', ctx, globals, above, span, pos, out, hst, hctx, habove, htypes, h => by
    rw [buildScope] at h
    obtain ⟨rfl, rfl⟩ := Prod.mk.inj (pure_eq_ok.mp h)
    obtain ⟨hst', hface⟩ := face_buildEmptyStatement hst hctx htypes span (some pos)
    refine ⟨?_, congrArg ([·]) hface⟩
    rw [StatementsSyntax.globalVerbs, formsOf, List.filterMap_nil, List.append_nil]
    exact hst'
  | .cons s rest, st, st', ctx, globals, above, span, pos, out, hst, hctx, habove, htypes, h => by
    obtain ⟨st₁, first, others, hs, hrest, rfl⟩ := buildScope_cons_ok h
    obtain ⟨hst₁, hfirst⟩ := faces_buildStatement s hst hctx habove hs
    obtain ⟨hst', hothers⟩ := faces_buildStatements rest hst₁ hctx habove hrest
    have hlength := congrArg List.length hfirst
    rw [List.length_map, List.length_map] at hlength
    rw [hlength] at hothers
    rw [StatementsSyntax.globalVerbs, formsOf_append, ← List.append_assoc]
    refine ⟨hst', ?_⟩
    rw [List.map_append, hfirst, hothers, StatementsSyntax.scopePlaces, List.map_append]

/-- The statements of a scope, one after the other. -/
theorem faces_buildStatements : ∀ (body : StatementsSyntax) {st st' : ParserState}
    {ctx : ParserContext} {globals : List VerbForm} {above : List (List VerbForm)}
    {parent : Option ℕ} {pos : ℕ} {out : List BuiltStatement},
    st.Reads globals → ctx.Opens above → above ≠ [] →
    buildStatements st ctx parent pos body = .ok (st', out) →
    st'.Reads (globals ++ formsOf (body.globalVerbs ctx.alternative)) ∧
      out.map (·.face) = (body.places above ctx.alternative parent pos).map (·.face)
  | .nil, st, st', ctx, globals, above, parent, pos, out, hst, hctx, habove, h => by
    rw [buildStatements] at h
    obtain ⟨rfl, rfl⟩ := Prod.mk.inj (pure_eq_ok.mp h)
    rw [StatementsSyntax.globalVerbs, formsOf, List.filterMap_nil, List.append_nil]
    exact ⟨hst, rfl⟩
  | .cons s rest, st, st', ctx, globals, above, parent, pos, out, hst, hctx, habove, h => by
    obtain ⟨st₁, first, others, hs, hrest, rfl⟩ := buildStatements_cons_ok h
    obtain ⟨hst₁, hfirst⟩ := faces_buildStatement s hst hctx habove hs
    have hlength := congrArg List.length hfirst
    rw [List.length_map, List.length_map] at hlength
    rw [hlength] at hrest
    obtain ⟨hst', hothers⟩ := faces_buildStatements rest hst₁ hctx habove hrest
    rw [StatementsSyntax.globalVerbs, formsOf_append, ← List.append_assoc]
    refine ⟨hst', ?_⟩
    rw [List.map_append, hfirst, hothers, StatementsSyntax.places, List.map_append]

end

/-- The statements at the top of a query. -/
theorem faces_buildTopLevel (query : StatementsSyntax) {st st' : ParserState}
    {globals : List VerbForm} {pos : ℕ} {out : List BuiltStatement} (hst : st.Reads globals)
    (h : buildTopLevel st pos query = .ok (st', out)) :
    out.map (·.face) = (query.topPlaces globals pos).map (·.face) := by
  match query with
  | .nil =>
    rw [buildTopLevel] at h
    obtain ⟨-, rfl⟩ := Prod.mk.inj (pure_eq_ok.mp h)
    rfl
  | .cons s rest =>
    obtain ⟨st₁, first, others, hs, hrest, rfl⟩ := buildTopLevel_cons_ok h
    obtain ⟨hst₁, hfirst⟩ := faces_buildStatement s hst hst.opens (List.cons_ne_nil _ _) hs
    rw [hst.alternative] at hst₁ hfirst
    have hlength := congrArg List.length hfirst
    rw [List.length_map, List.length_map] at hlength
    rw [hlength] at hrest
    rw [List.map_append, hfirst, faces_buildTopLevel rest hst₁ hrest, StatementsSyntax.topPlaces,
      List.map_append]

theorem ParserState.reads_initial : ParserState.initial.Reads [] where
  opens := ⟨.new, rfl, rfl, rfl, rfl, rfl⟩
  level := rfl
  alternative := rfl

/-- **What the statements of a query are**: each is the one that its place makes. -/
theorem faces_of_parse {whole : Span} {query : StatementsSyntax} {q : ParsedQuery}
    (h : parse whole query = .ok q) :
    q.statements.map (·.face) = (query.topPlaces [] 0).map (·.face) := by
  obtain ⟨⟨st, out⟩, htop, h⟩ := bind_eq_ok.mp h
  obtain rfl := pure_eq_ok.mp h
  exact faces_buildTopLevel query ParserState.reads_initial htop

/-- `preamble project("a"); func has { select {}; any { any {} } }`. -/
def scopedQuery : StatementsSyntax :=
  let func : VerbForm :=
    .typeSelector symbolTypeFunction (.leaf (.symbolType symbolTypeFunction)) true false true none
  .cons (.verbs ⟨0, 21⟩
      [⟨⟨0, 8⟩, .verb .preambleVerb⟩, ⟨⟨9, 21⟩, .verb (.projectFilter ['a'])⟩]) <|
    .cons (.scoped ⟨23, 61⟩ [⟨⟨23, 27⟩, .verb func⟩, ⟨⟨28, 31⟩, .verb .hasModifier⟩] ⟨32, 61⟩ <|
      .cons (.scoped ⟨34, 43⟩ [⟨⟨34, 40⟩, .verb .genericSelector⟩] ⟨41, 43⟩ .nil) <|
        .cons (.scoped ⟨45, 59⟩ [⟨⟨45, 48⟩, .verb .anyModifier⟩] ⟨49, 59⟩ <|
          .cons (.scoped ⟨51, 57⟩ [⟨⟨51, 54⟩, .verb .anyModifier⟩] ⟨55, 57⟩ .nil) .nil) .nil) .nil

/-- What is looked at in the statements of a query: which are contained in the ones around them,
and which of them are confined to a project and to a type of symbols. -/
def ParsedQuery.scoping (q : ParsedQuery) : List (Bool × Bool × Bool) :=
  q.statements.map fun b => (b.relationshipType.has,
    b.verbs.any (·.form.tag == some .projectFilter),
    b.verbs.any (·.form.suppressesDefaultTypeFilter))

/-- The containment reaches all scopes, the project too, and the functions only the first. -/
theorem faces_scopedQuery : ∃ q, parse ⟨0, 61⟩ scopedQuery = .ok q ∧
    q.statements.map (·.face) = (scopedQuery.topPlaces [] 0).map (·.face) ∧
    q.scoping = [(false, false, false), (false, true, true), (true, true, true),
      (true, true, true), (true, true, false), (true, true, false), (true, true, false)] := by
  have hparse : ((parse ⟨0, 61⟩ scopedQuery).toOption.map (·.scoping)) =
      some [(false, false, false), (false, true, true), (true, true, true),
        (true, true, true), (true, true, false), (true, true, false), (true, true, false)] := by
    decide +kernel
  cases hq : parse ⟨0, 61⟩ scopedQuery with
  | error e =>
    rw [hq] at hparse
    cases hparse
  | ok q =>
    rw [hq] at hparse
    exact ⟨q, rfl, faces_of_parse hq, Option.some.inj hparse⟩

end Askl
