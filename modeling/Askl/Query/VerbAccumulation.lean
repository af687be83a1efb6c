import Askl.Library.Replacing
import Askl.Query.Parse

/-!
# How verbs accumulate

A command starts with the verbs it inherits and is extended by one verb after the other.
`add_verb` builds the whole list anew each time: every verb, in order, drops those before it
that it replaces.  In a list that was built this way nothing is left to be replaced, so only
the verb that is added replaces any.

## Main definitions

* `VerbForm.replaces` — which verbs a verb replaces.
* `BuiltVerbs` — the verbs of a command that was derived and extended.
* `extendVerbs` — `Command::extend` with one verb after the other.
* `Accumulates` — the inherited verbs and the added ones, without the replaced ones.

## Main results

* `addVerb_eq_refold` — `add_verb` builds the list anew.
* `BuiltVerbs.settled` — no verb of a command is replaced by a later one.
* `accumulates_of_built` — **what a command is left with.**
* `builtVerbs_of_parse` — **every command of a query is built this way.**
-/

namespace Askl

open Replacing

/-! ### What a verb replaces -/

/-- The tags whose verbs replace those of the same tag. -/
def VerbTag.replacing : VerbTag → Bool
  | .projectFilter | .genericSelector => true
  | .genericType | .genericExactName | .genericCompoundName => true
  | .typeFilter | .unnest => false

/-- Whether a verb replaces another: one with its tag, or one that suppresses the default
type filter. -/
def VerbForm.replaces (f g : VerbForm) : Bool :=
  match f with
  | projectFilter _ | genericSelector | genericFilter .. => f.tag == g.tag
  | typeSelector .. | anyModifier => g.suppressesDefaultTypeFilter
  | _ => false

/-- Whether a verb of a command replaces another. -/
def ParsedVerb.replaces (v w : ParsedVerb) : Bool := v.form.replaces w.form

/-- A verb is added to the verbs it does not replace. -/
theorem VerbForm.addVerb_eq_filter (f : VerbForm) (existing : List ParsedVerb) :
    f.addVerb existing = existing.filter fun v => !f.replaces v.form := by
  cases f <;> first | rfl | exact (List.filter_eq_self.mpr fun _ _ => rfl).symm

/-- Verbs with one tag, if it is a replacing one, replace each other. -/
theorem VerbForm.replaces_of_tag {f g : VerbForm} {tag : VerbTag} (htag : tag.replacing = true)
    (hf : f.tag = some tag) (hg : g.tag = some tag) : f.replaces g = true := by
  have hsame : (f.tag == g.tag) = true := by
    rw [hf, hg]
    exact beq_self_eq_true _
  cases f with
  | projectFilter | genericSelector | genericFilter => exact hsame
  | typeSelector symbolTypeId filter filterOnly named =>
    rw [VerbForm.tag] at hf
    split at hf
    · obtain rfl := Option.some.inj hf
      cases htag
    · cases hf
  | unnestModifier =>
    obtain rfl := Option.some.inj hf
    cases htag
  | _ => cases hf

/-- **`add_verb` builds the list anew.** -/
theorem addVerb_eq_refold (existing : List ParsedVerb) (new : ParsedVerb) :
    addVerb existing new = refold ParsedVerb.replaces (existing ++ [new]) := by
  unfold addVerb refold
  congr 1
  funext kept v
  rw [v.form.addVerb_eq_filter]
  rfl

/-! ### Commands -/

/-- The verbs of a command: it is new, derived from another one or extended. -/
inductive BuiltVerbs : List ParsedVerb → Prop
  | new : BuiltVerbs []
  | derive {parent : List ParsedVerb} (next : ℕ) :
      BuiltVerbs parent → BuiltVerbs (deriveVerbs next parent).2
  | extend {verbs : List ParsedVerb} (new : ParsedVerb) :
      BuiltVerbs verbs → BuiltVerbs (addVerb verbs new)

/-- `Command::extend` with one verb after the other. -/
def extendVerbs (command added : List ParsedVerb) : List ParsedVerb := added.foldl addVerb command

/-- Inherited verbs are verbs of the parent, or new instances of them. -/
theorem forms_deriveVerbs_sublist (next : ℕ) (parent : List ParsedVerb) :
    ((deriveVerbs next parent).2.map (·.form)).Sublist (parent.map (·.form)) := by
  induction parent generalizing next with
  | nil => exact List.Sublist.refl _
  | cons v vs ih =>
    rw [deriveVerbs]
    split
    · exact (ih next).cons _
    · exact (ih (next + 1)).cons_cons _
    · exact (ih next).cons_cons _

/-- No verb is replaced by a later one exactly when none of the forms is. -/
theorem settled_iff_forms {verbs : List ParsedVerb} :
    Settled ParsedVerb.replaces verbs ↔ Settled VerbForm.replaces (verbs.map (·.form)) :=
  (settled_map (f := ParsedVerb.form)).symm

/-- **No verb of a command is replaced by a later one.** -/
theorem BuiltVerbs.settled {verbs : List ParsedVerb} (h : BuiltVerbs verbs) :
    Settled ParsedVerb.replaces verbs := by
  induction h with
  | new => exact List.Pairwise.nil
  | derive next _ ih =>
    exact settled_iff_forms.mpr ((settled_iff_forms.mp ih).sublist (forms_deriveVerbs_sublist _ _))
  | extend new _ _ =>
    rw [addVerb_eq_refold, refold_eq]
    exact settled_unreplaced _

theorem BuiltVerbs.extendAll {verbs : List ParsedVerb} (h : BuiltVerbs verbs)
    (added : List ParsedVerb) : BuiltVerbs (extendVerbs verbs added) := by
  induction added generalizing verbs with
  | nil => exact h
  | cons new added ih => exact ih (h.extend new)

/-- A command has the verbs it inherits, then the ones that were added, without those that
some later verb that was added replaces; another verb replaces what it replaces, and nothing
else; of each replacing tag the latest verb is left, or none. -/
structure Accumulates (inherited added verbs : List ParsedVerb) : Prop where
  verbs_eq : verbs = inherited.filter (fun v => !added.any (·.replaces v)) ++
    unreplaced ParsedVerb.replaces added
  addVerb_eq : ∀ new, addVerb verbs new = verbs.filter (fun v => !new.replaces v) ++ [new]
  atMostOne : ∀ tag : VerbTag, tag.replacing = true →
    (verbs.filter (·.form.tag == some tag)).length ≤ 1
  latest : ∀ tag : VerbTag, tag.replacing = true → ∀ v ∈ verbs, v.form.tag = some tag →
    ((inherited ++ added).filter (·.form.tag == some tag)).getLast? = some v

/-- The verbs of one replacing tag replace each other. -/
theorem replaces_of_tag {tag : VerbTag} (htag : tag.replacing = true) (v w : ParsedVerb)
    (hv : (v.form.tag == some tag) = true) (hw : (w.form.tag == some tag) = true) :
    v.replaces w = true :=
  VerbForm.replaces_of_tag htag (beq_iff_eq.mp hv) (beq_iff_eq.mp hw)

theorem BuiltVerbs.accumulates {inherited : List ParsedVerb} (h : BuiltVerbs inherited)
    (added : List ParsedVerb) : Accumulates inherited added (extendVerbs inherited added) := by
  have hverbs : extendVerbs inherited added =
      inherited.filter (fun v => !added.any (·.replaces v)) ++
        unreplaced ParsedVerb.replaces added := by
    rw [← foldl_refold_eq h.settled added]
    unfold extendVerbs
    congr 1
    funext kept new
    exact addVerb_eq_refold kept new
  have hall : extendVerbs inherited added =
      unreplaced ParsedVerb.replaces (inherited ++ added) := by
    rw [hverbs, unreplaced_append, h.settled.unreplaced_eq]
  have hsettled := (h.extendAll added).settled
  refine ⟨hverbs, fun new => ?_, fun tag htag => ?_, fun tag htag v hv hvtag => ?_⟩
  · rw [addVerb_eq_refold, hsettled.refold_concat]
  · exact hsettled.length_filter_le (replaces_of_tag htag)
  · rw [hall] at hv
    exact getLast?_of_mem_unreplaced (replaces_of_tag htag) hv (beq_iff_eq.mpr hvtag)

/-- **What a command is left with**, when it is derived from another and extended by some
verbs. -/
theorem accumulates_of_built {parent : List ParsedVerb} (h : BuiltVerbs parent) (next : ℕ)
    (added : List ParsedVerb) :
    Accumulates (deriveVerbs next parent).2 added (extendVerbs (deriveVerbs next parent).2 added) :=
  (h.derive next).accumulates added

/-- `project("a") func { ... }`: the verbs of a scope, the second as it is inherited. -/
def scopeVerbs : List ParsedVerb :=
  extendVerbs [] [⟨0, ⟨0, 12⟩, .projectFilter ['a']⟩,
    ⟨1, ⟨13, 17⟩, .typeSelector symbolTypeFunction (.leaf (.symbolType 1)) true false true none⟩]

/-- `project("b") any project("c")` in that scope. -/
def innerVerbs : List ParsedVerb :=
  [⟨3, ⟨20, 32⟩, .projectFilter ['b']⟩, ⟨4, ⟨33, 36⟩, .anyModifier⟩,
    ⟨5, ⟨37, 49⟩, .projectFilter ['c']⟩]

/-- The inner command keeps the last project only, and no type. -/
theorem accumulates_innerVerbs :
    Accumulates (deriveVerbs 2 scopeVerbs).2 innerVerbs
        (extendVerbs (deriveVerbs 2 scopeVerbs).2 innerVerbs) ∧
      (deriveVerbs 2 scopeVerbs).2.map (·.id) = [0, 2] ∧
      (extendVerbs (deriveVerbs 2 scopeVerbs).2 innerVerbs).map (·.id) = [4, 5] :=
  ⟨accumulates_of_built (BuiltVerbs.new.extendAll _) 2 innerVerbs, rfl, rfl⟩

/-! ### The commands of a query -/

section Parse

variable {st st' : ParserState} {ctx ctx' : ParserContext}

/-- The commands of the global context and of a context were built. -/
structure ParserState.Accumulated (st : ParserState) (ctx : ParserContext) : Prop where
  global : BuiltVerbs st.global.command
  command : BuiltVerbs ctx.command

theorem ParserState.Accumulated.derive (h : st.Accumulated ctx) :
    (st.derive ctx).1.Accumulated (st.derive ctx).2 :=
  ⟨h.global, h.command.derive st.nextId⟩

/-- A context that accepts a verb consumes it or adds it. -/
theorem builtVerbs_of_accept {v : ParsedVerb} (h : BuiltVerbs ctx.command)
    (haccept : ctx.accept v = .ok ctx') : BuiltVerbs ctx'.command := by
  obtain ⟨⟨updated, consumed⟩, hupdate, haccept⟩ := Fallible.bind_eq_ok.mp haccept
  have hcommand : updated.command = ctx.command := (updateContext_ok hupdate).command
  obtain rfl := Fallible.pure_eq_ok.mp haccept
  cases consumed with
  | true => exact hcommand ▸ h
  | false =>
    show BuiltVerbs (addVerb updated.command v)
    rw [hcommand]
    exact h.extend v

theorem ParserState.Accumulated.buildVerb {w : WrittenVerb} (h : st.Accumulated ctx)
    (hbuild : buildVerb st ctx w = .ok (st', ctx')) : st'.Accumulated ctx' := by
  obtain ⟨⟨st₁, v⟩, hnew, hbuild⟩ := Fallible.bind_eq_ok.mp hbuild
  have hglobal : BuiltVerbs st₁.global.command := by
    rw [(newVerb_ok hnew).global]
    exact h.global
  dsimp only at hbuild
  split at hbuild
  · obtain ⟨global, haccept, hbuild⟩ := Fallible.bind_eq_ok.mp hbuild
    obtain ⟨rfl, rfl⟩ := Prod.mk.inj (Fallible.pure_eq_ok.mp hbuild)
    exact ⟨builtVerbs_of_accept hglobal haccept, h.command⟩
  · obtain ⟨own, haccept, hbuild⟩ := Fallible.bind_eq_ok.mp hbuild
    obtain ⟨rfl, rfl⟩ := Prod.mk.inj (Fallible.pure_eq_ok.mp hbuild)
    exact ⟨hglobal, builtVerbs_of_accept h.command haccept⟩

theorem ParserState.Accumulated.buildVerbs {ws : List WrittenVerb} (h : st.Accumulated ctx)
    (hbuild : buildVerbs st ctx ws = .ok (st', ctx')) : st'.Accumulated ctx' := by
  induction ws generalizing st ctx with
  | nil =>
    obtain ⟨rfl, rfl⟩ := Prod.mk.inj (Except.ok.inj hbuild)
    exact h
  | cons w ws ih =>
    obtain ⟨⟨st₁, ctx₁⟩, hw, hbuild⟩ := Fallible.bind_eq_ok.mp hbuild
    exact ih (h.buildVerb hw) hbuild

theorem ParserState.Accumulated.addDefaultTypeFilter (h : st.Accumulated ctx) (span : Span)
    (types : List ℤ) : (st.addDefaultTypeFilter ctx span types).1.Accumulated
      (st.addDefaultTypeFilter ctx span types).2 := by
  unfold ParserState.addDefaultTypeFilter
  split
  · exact h
  · unfold ParserState.extendVerb
    split
    · exact ⟨h.global.extend _, h.command⟩
    · exact ⟨h.global, h.command.extend _⟩

/-- The command that is taken out of a context. -/
theorem builtVerbs_takeCommand (h : st.Accumulated ctx) (span : Span) :
    BuiltVerbs (st.takeCommand ctx span).1.global.command ∧
      BuiltVerbs (st.takeCommand ctx span).2 := by
  unfold ParserState.takeCommand
  split
  · exact ⟨h.global, h.command⟩
  · exact ⟨h.global, h.command.extend _⟩

theorem builtVerbs_finishStatement (h : st.Accumulated ctx) (span : Span) (types : List ℤ)
    (rel : RelationshipType) (parent : Option ℕ) :
    BuiltVerbs (st.finishStatement ctx span types rel parent).1.global.command ∧
      BuiltVerbs (st.finishStatement ctx span types rel parent).2.verbs :=
  builtVerbs_takeCommand (h.addDefaultTypeFilter span types) span

/-- What the statements of a part of the query leave: commands that were built. -/
def BuiltOut (st : ParserState) (out : List BuiltStatement) : Prop :=
  BuiltVerbs st.global.command ∧ ∀ b ∈ out, BuiltVerbs b.verbs

theorem BuiltOut.append {out out' : List BuiltStatement} (h : BuiltOut st out)
    (h' : BuiltOut st' out') : BuiltOut st' (out ++ out') :=
  ⟨h'.1, fun b hb => (List.mem_append.mp hb).elim (h.2 b) (h'.2 b)⟩

end Parse

mutual

/-- The commands of a statement and of those in its scope, by induction along the syntax. -/
theorem builtOut_buildStatement : ∀ (s : StatementSyntax) {st st' : ParserState}
    {ctx : ParserContext} {parent : Option ℕ} {pos : ℕ} {out : List BuiltStatement},
    st.Accumulated ctx → buildStatement st ctx parent pos s = .ok (st', out) → BuiltOut st' out
  | .verbs span vs, st, st', ctx, parent, pos, out, hst, h => by
    obtain ⟨st₁, sub, types, rel, hverbs, rfl, rfl⟩ := buildStatement_verbs_ok h
    have hsub := hst.derive.buildVerbs hverbs
    obtain ⟨hglobal, hcommand⟩ := builtVerbs_finishStatement hsub span types rel parent
    exact ⟨hglobal, List.forall_mem_singleton.mpr hcommand⟩
  | .scoped span vs scopeSpan body, st, st', ctx, parent, pos, out, hst, h => by
    obtain ⟨st₁, sub, st₂, children, types, rel, hverbs, hscope, rfl, rfl⟩ :=
      buildStatement_scoped_ok h
    have hsub := hst.derive.buildVerbs hverbs
    have henter : st₁.Accumulated sub.enterScope := ⟨hsub.global, hsub.command⟩
    obtain ⟨hscopeGlobal, hchildren⟩ := builtOut_buildScope body henter hscope
    obtain ⟨hglobal, hcommand⟩ :=
      builtVerbs_finishStatement ⟨hscopeGlobal, hsub.command⟩ span types rel parent
    refine ⟨hglobal, List.forall_mem_cons.mpr ⟨hcommand, ?_⟩⟩
    split
    · exact List.forall_mem_nil _
    · exact hchildren

/-- The commands of a scope. -/
theorem builtOut_buildScope : ∀ (body : StatementsSyntax) {st st' : ParserState}
    {ctx : ParserContext} {span : Span} {pos : ℕ} {out : List BuiltStatement},
    st.Accumulated ctx → buildScope st ctx span pos body = .ok (st', out) → BuiltOut st' out
  | .nil, st, st', ctx, span, pos, out, hst, h => by
    rw [buildScope] at h
    obtain ⟨rfl, rfl⟩ := Prod.mk.inj (Fallible.pure_eq_ok.mp h)
    obtain ⟨hglobal, hcommand⟩ := builtVerbs_finishStatement hst.derive span
      ((st.derive ctx).2.defaultSymbolTypes.getD []) (st.derive ctx).2.relationshipType (some pos)
    exact ⟨hglobal, List.forall_mem_singleton.mpr hcommand⟩
  | .cons s rest, st, st', ctx, span, pos, out, hst, h => by
    obtain ⟨st₁, out₁, out₂, hs, hrest, rfl⟩ := buildScope_cons_ok h
    have hout := builtOut_buildStatement s hst hs
    exact hout.append (builtOut_buildStatements rest ⟨hout.1, hst.command⟩ hrest)

/-- The commands of the statements of a scope, one after the other. -/
theorem builtOut_buildStatements : ∀ (body : StatementsSyntax) {st st' : ParserState}
    {ctx : ParserContext} {parent : Option ℕ} {pos : ℕ} {out : List BuiltStatement},
    st.Accumulated ctx → buildStatements st ctx parent pos body = .ok (st', out) → BuiltOut st' out
  | .nil, st, st', ctx, parent, pos, out, hst, h => by
    rw [buildStatements] at h
    obtain ⟨rfl, rfl⟩ := Prod.mk.inj (Fallible.pure_eq_ok.mp h)
    exact ⟨hst.global, List.forall_mem_nil _⟩
  | .cons s rest, st, st', ctx, parent, pos, out, hst, h => by
    obtain ⟨st₁, out₁, out₂, hs, hrest, rfl⟩ := buildStatements_cons_ok h
    have hout := builtOut_buildStatement s hst hs
    exact hout.append (builtOut_buildStatements rest ⟨hout.1, hst.command⟩ hrest)

end

/-- The commands at the top of a query. -/
theorem builtOut_buildTopLevel (query : StatementsSyntax) {st st' : ParserState} {pos : ℕ}
    {out : List BuiltStatement} (hst : BuiltVerbs st.global.command)
    (h : buildTopLevel st pos query = .ok (st', out)) : BuiltOut st' out := by
  match query with
  | .nil =>
    rw [buildTopLevel] at h
    obtain ⟨rfl, rfl⟩ := Prod.mk.inj (Fallible.pure_eq_ok.mp h)
    exact ⟨hst, List.forall_mem_nil _⟩
  | .cons s rest =>
    obtain ⟨st₁, out₁, out₂, hs, hrest, rfl⟩ := buildTopLevel_cons_ok h
    have hout := builtOut_buildStatement s ⟨hst, hst⟩ hs
    exact hout.append (builtOut_buildTopLevel rest hout.1 hrest)

/-- **Every command of a query is built this way**: its verbs are settled, and the latest of
their tags. -/
theorem builtVerbs_of_parse {whole : Span} {query : StatementsSyntax} {q : ParsedQuery}
    (h : parse whole query = .ok q) : ∀ b ∈ q.root :: q.statements, BuiltVerbs b.verbs := by
  obtain ⟨⟨st, out⟩, htop, h⟩ := Fallible.bind_eq_ok.mp h
  obtain ⟨hglobal, hout⟩ := builtOut_buildTopLevel query .new htop
  obtain rfl := Fallible.pure_eq_ok.mp h
  refine List.forall_mem_cons.mpr ⟨?_, hout⟩
  have hst : st.Accumulated st.global := ⟨hglobal, hglobal⟩
  exact (builtVerbs_takeCommand hst whole).2

end Askl
