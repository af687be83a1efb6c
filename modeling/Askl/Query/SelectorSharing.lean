import Askl.Query.Context
import Askl.Query.Parse

/-!
# Which statements share a selector

A selector writes its selection into the registry under its own address.  Every selector
that a scope hands down is a new object, save the unit verb, which is the same object in
all the statements that inherit it.  The statements of a query own their selectors
exactly when no unit verb is handed down.

## Main definitions

* `ownVerbs`, `globalVerbs` — the verbs of a statement on the two sides of `preamble`.
* `StatementSyntax.shares`, `StatementsSyntax.sharesFrom` — a unit verb is handed down.
* `Owned`, `Built` — where the selectors of the statements come from.
* `DistinctSelectors`, `IndependentWrites` — the statements share no entry.

## Main results

* `independentWrites_iff` — writes are independent when the selectors are distinct.
* `buildStatement_built` — what a successful build gives, proved along the syntax.
* `ownEntries_of_parse` — **which queries keep their registry entries apart.**
-/

namespace Askl

/-! ### Where a unit verb goes -/

/-- The verbs that act on the statement's own context: those up to `preamble`. -/
def ownVerbs (alternative : Bool) : List WrittenVerb → List WrittenVerb
  | [] => []
  | w :: ws => if alternative then [] else w :: ownVerbs w.isPreamble ws

/-- The verbs that act on the global context: those after `preamble`. -/
def globalVerbs (alternative : Bool) : List WrittenVerb → List WrittenVerb
  | [] => []
  | w :: ws => if alternative then w :: globalVerbs true ws else globalVerbs w.isPreamble ws

/-- Whether a unit verb is among written verbs. -/
def writesUnit (ws : List WrittenVerb) : Bool := ws.any (·.isUnit)

/-- Whether `layer` is among written verbs. -/
def writesLayer (ws : List WrittenVerb) : Bool := ws.any (·.isLayer)

mutual

/-- The verbs of a statement and its scope that act on the global context. -/
def StatementSyntax.globalVerbs (alternative : Bool) : StatementSyntax → List WrittenVerb
  | .verbs _ vs => Askl.globalVerbs alternative vs
  | .scoped _ vs _ body => Askl.globalVerbs alternative vs ++
      body.globalVerbs (alternative || vs.any (·.isPreamble))

/-- The verbs of the statements of a scope that act on the global context. -/
def StatementsSyntax.globalVerbs (alternative : Bool) : StatementsSyntax → List WrittenVerb
  | .nil => []
  | .cons s rest => s.globalVerbs alternative ++ rest.globalVerbs alternative

end

mutual

/-- Whether a statement hands a unit verb to the statements of its scope, or one of these
does.  The statement starts with one itself when `unit`, and in a layer block, whose
statements are discarded, when `layer`. -/
def StatementSyntax.shares (alternative unit layer : Bool) : StatementSyntax → Bool
  | .verbs _ _ => false
  | .scoped _ vs _ body =>
    !(layer || writesLayer (ownVerbs alternative vs)) &&
      (unit || writesUnit (ownVerbs alternative vs) ||
        body.shares (alternative || vs.any (·.isPreamble)))

/-- Whether one of the statements of a scope hands a unit verb down. -/
def StatementsSyntax.shares (alternative : Bool) : StatementsSyntax → Bool
  | .nil => false
  | .cons s rest => s.shares alternative false false || rest.shares alternative

end

namespace StatementsSyntax

/-- Whether a query has no statements. -/
def isNil : StatementsSyntax → Bool
  | .nil => true
  | .cons _ _ => false

/-- Whether two of the statements of a query share a unit verb: one hands it down, or it
is in the global context of a statement that another one follows. -/
def sharesFrom (unit layer : Bool) : StatementsSyntax → Bool
  | .nil => false
  | .cons s rest => s.shares false unit layer || unit && !rest.isNil ||
      rest.sharesFrom (unit || writesUnit (s.globalVerbs false))
        (layer || writesLayer (s.globalVerbs false))

/-- The same with the root of the tree, which ends up with the global context. -/
def sharesWithRoot (unit layer : Bool) : StatementsSyntax → Bool
  | .nil => false
  | .cons s rest => s.shares false unit layer || unit ||
      rest.sharesWithRoot (unit || writesUnit (s.globalVerbs false))
        (layer || writesLayer (s.globalVerbs false))

end StatementsSyntax

/-! ### Addresses -/

/-- Whether a command has a unit verb. -/
def hasUnit (vs : List ParsedVerb) : Bool := vs.any (·.form.isUnit)

theorem hasUnit_iff {vs : List ParsedVerb} :
    hasUnit vs = true ↔ ∃ v ∈ vs, v.form.isUnit = true := by
  simp [hasUnit]

/-- The parser's state is one the parser reaches: the global context is the first one, and
its verbs have addresses. -/
structure ParserState.Valid (st : ParserState) : Prop where
  level : st.global.level = 0
  alternative : st.global.alternative = false
  lt : ∀ v ∈ st.global.command, v.id < st.nextId

/-- What the parser does to its state: it takes addresses, and verbs with new addresses
join the global context, which keeps its unit verbs. -/
structure ParserState.Grows (st st' : ParserState) : Prop where
  le : st.nextId ≤ st'.nextId
  valid : st'.Valid
  global : ∀ v ∈ st'.global.command,
    v ∈ st.global.command ∨ st.nextId ≤ v.id ∧ v.id < st'.nextId
  units : ∀ u ∈ st.global.command, u.form.isUnit = true → u ∈ st'.global.command

namespace ParserState

theorem Valid.refl {st : ParserState} (h : st.Valid) : st.Grows st :=
  ⟨le_rfl, h, fun _ hv => Or.inl hv, fun _ hu _ => hu⟩

theorem Grows.trans {st₁ st₂ st₃ : ParserState} (h : st₁.Grows st₂) (h' : st₂.Grows st₃) :
    st₁.Grows st₃ where
  le := h.le.trans h'.le
  valid := h'.valid
  global v hv := by
    have hle := h.le
    have hle' := h'.le
    rcases h'.global v hv with hv | ⟨hlo, hhi⟩
    · rcases h.global v hv with hv | ⟨hlo, hhi⟩
      · exact Or.inl hv
      · exact Or.inr ⟨hlo, by omega⟩
    · exact Or.inr ⟨by omega, hhi⟩
  units u hu hunit := h'.units u (h.units u hu hunit) hunit

/-- Addresses are taken, and the global context stays. -/
theorem Valid.grows_of_global {st st' : ParserState} (h : st.Valid) (hle : st.nextId ≤ st'.nextId)
    (hglobal : st'.global = st.global) : st.Grows st' where
  le := hle
  valid := ⟨by rw [hglobal]; exact h.level, by rw [hglobal]; exact h.alternative,
    fun v hv => (h.lt v (by rwa [hglobal] at hv)).trans_le hle⟩
  global v hv := Or.inl (by rwa [hglobal] at hv)
  units u hu _ := by rwa [hglobal]

end ParserState

/-- Where a selector of a statement comes from: it is a unit verb the statement inherits,
or it was made between two addresses and is not in the global context. -/
def Owned (inherited : List ParsedVerb) (lo : ℕ) (st : ParserState)
    (v : ParsedVerb) : Prop :=
  v ∈ inherited ∧ v.form.isUnit = true ∨
    lo ≤ v.id ∧ v.id < st.nextId ∧ ∀ w ∈ st.global.command, w.id ≠ v.id

/-- What is owned stays owned. -/
theorem Owned.mono {inherited : List ParsedVerb} {lo lo' : ℕ} {st st' : ParserState}
    {v : ParsedVerb} (h : Owned inherited lo st v) (hlo : lo' ≤ lo) (hst : st.Grows st') :
    Owned inherited lo' st' v := by
  rcases h with h | ⟨hge, hlt, hne⟩
  · exact Or.inl h
  · refine Or.inr ⟨hlo.trans hge, hlt.trans_le hst.le, fun w hw => ?_⟩
    rcases hst.global w hw with hw | ⟨hwlo, -⟩
    · exact hne w hw
    · omega

/-! ### A context that is derived -/

theorem deriveVerbs_le (n : ℕ) (vs : List ParsedVerb) : n ≤ (deriveVerbs n vs).1 := by
  induction vs generalizing n with
  | nil => exact le_rfl
  | cons v vs ih =>
    rw [deriveVerbs]
    split
    · exact ih n
    · exact (Nat.le_succ n).trans (ih (n + 1))
    · exact ih n

/-- An inherited verb is a verb of the scope, or a new one that is no unit verb. -/
theorem mem_deriveVerbs {n : ℕ} {vs : List ParsedVerb} {v : ParsedVerb}
    (hv : v ∈ (deriveVerbs n vs).2) :
    v ∈ vs ∧ (v.form.isSelector = true → v.form.isUnit = true) ∨
      n ≤ v.id ∧ v.id < (deriveVerbs n vs).1 ∧ v.form.isUnit = false := by
  induction vs generalizing n with
  | nil => cases hv
  | cons w vs ih =>
    rw [deriveVerbs] at hv ⊢
    split at hv
    · rcases ih hv with ⟨hmem, hsel⟩ | hnew
      · exact Or.inl ⟨List.mem_cons_of_mem _ hmem, hsel⟩
      · exact Or.inr hnew
    · next _ _ _ hinst =>
      rcases List.mem_cons.mp hv with rfl | hv
      · refine Or.inr ⟨le_rfl, (Nat.lt_succ_self n).trans_le (deriveVerbs_le _ vs), ?_⟩
        rw [← Bool.not_eq_true]
        intro hunit
        rw [(VerbForm.isUnit_iff _).mp hunit] at hinst
        cases hinst
      · rcases ih hv with ⟨hmem, hsel⟩ | ⟨hlo, hhi, hunit⟩
        · exact Or.inl ⟨List.mem_cons_of_mem _ hmem, hsel⟩
        · exact Or.inr ⟨by omega, hhi, hunit⟩
    · next _ _ hclone hinst =>
      rcases List.mem_cons.mp hv with rfl | hv
      · exact Or.inl ⟨List.mem_cons_self, fun hsel => VerbForm.isUnit_of_shared hsel hclone hinst⟩
      · rcases ih hv with ⟨hmem, hsel⟩ | hnew
        · exact Or.inl ⟨List.mem_cons_of_mem _ hmem, hsel⟩
        · exact Or.inr hnew

/-- Unit verbs are inherited. -/
theorem mem_deriveVerbs_of_isUnit {n : ℕ} {vs : List ParsedVerb} {v : ParsedVerb}
    (hv : v ∈ vs) (hunit : v.form.isUnit = true) : v ∈ (deriveVerbs n vs).2 := by
  induction vs generalizing n with
  | nil => cases hv
  | cons w vs ih =>
    rw [deriveVerbs]
    rcases List.mem_cons.mp hv with rfl | hv
    · rw [(VerbForm.isUnit_iff _).mp hunit]
      exact List.mem_cons_self
    · split
      · exact ih hv
      · exact List.mem_cons_of_mem _ (ih hv)
      · exact List.mem_cons_of_mem _ (ih hv)

section Derive

variable {st : ParserState} {ctx : ParserContext}

theorem derive_grows (hst : st.Valid) (ctx : ParserContext) : st.Grows (st.derive ctx).1 :=
  hst.grows_of_global (deriveVerbs_le _ _) rfl

/-- The selectors a statement starts with are its own, or unit verbs. -/
theorem derive_owned (hst : st.Valid) {v : ParsedVerb} (hv : v ∈ (st.derive ctx).2.command)
    (hsel : v.form.isSelector = true) : Owned ctx.command st.nextId (st.derive ctx).1 v := by
  rcases mem_deriveVerbs hv with ⟨hmem, hunit⟩ | ⟨hlo, hhi, -⟩
  · exact Or.inl ⟨hmem, hunit hsel⟩
  · refine Or.inr ⟨hlo, hhi, fun w hw => ?_⟩
    have hlt := hst.lt w hw
    omega

theorem hasUnit_derive : hasUnit (st.derive ctx).2.command = hasUnit ctx.command := by
  rw [Bool.eq_iff_iff, hasUnit_iff, hasUnit_iff]
  constructor
  · rintro ⟨v, hv, hunit⟩
    rcases mem_deriveVerbs hv with ⟨hmem, -⟩ | ⟨-, -, hnot⟩
    · exact ⟨v, hmem, hunit⟩
    · rw [hunit] at hnot
      cases hnot
  · rintro ⟨v, hv, hunit⟩
    exact ⟨v, mem_deriveVerbs_of_isUnit hv hunit, hunit⟩

end Derive

/-! ### Verbs -/

theorem ParsedVerb.Accepted.hasUnit_eq {v : ParsedVerb} {ctx ctx' : ParserContext}
    (h : v.Accepted ctx ctx') : hasUnit ctx'.command = (hasUnit ctx.command || v.form.isUnit) := by
  rw [Bool.eq_iff_iff, Bool.or_eq_true, hasUnit_iff, hasUnit_iff]
  constructor
  · rintro ⟨u, hu, hunit⟩
    rcases List.mem_append.mp (h.subset hu) with hu | hu
    · exact Or.inl ⟨u, hu, hunit⟩
    · rw [List.mem_singleton.mp hu] at hunit
      exact Or.inr hunit
  · rintro (⟨u, hu, hunit⟩ | hunit)
    · exact ⟨u, h.units u (List.mem_append_left _ hu) hunit, hunit⟩
    · exact ⟨v, h.units v (by simp) hunit, hunit⟩

/-- What the verbs of a statement do to its context and to the parser's state. -/
structure VerbsBuilt (ws : List WrittenVerb) (st : ParserState) (ctx : ParserContext)
    (st' : ParserState) (ctx' : ParserContext) : Prop where
  grows : st.Grows st'
  owned : ∀ {inherited lo}, lo ≤ st.nextId →
    (∀ v ∈ ctx.command, v.form.isSelector = true → Owned inherited lo st v) →
    ∀ v ∈ ctx'.command, v.form.isSelector = true → Owned inherited lo st' v
  units : ∀ u ∈ ctx.command, u.form.isUnit = true → u ∈ ctx'.command
  alternative : ctx'.alternative = (ctx.alternative || ws.any (·.isPreamble))
  hasUnit : hasUnit ctx'.command =
    (hasUnit ctx.command || writesUnit (ownVerbs ctx.alternative ws))
  inLayer : ctx'.inLayer = (ctx.inLayer || writesLayer (ownVerbs ctx.alternative ws))
  globalUnit : Askl.hasUnit st'.global.command =
    (Askl.hasUnit st.global.command || writesUnit (globalVerbs ctx.alternative ws))
  globalLayer : st'.global.inLayer =
    (st.global.inLayer || writesLayer (globalVerbs ctx.alternative ws))

/-- One verb in its own context, or in the global one. -/
theorem buildVerb_built {st st' : ParserState} {ctx ctx' : ParserContext} {w : WrittenVerb}
    (hst : st.Valid) (h : buildVerb st ctx w = .ok (st', ctx')) :
    VerbsBuilt [w] st ctx st' ctx' := by
  obtain ⟨v, st₁, hnew, hnext, ⟨halt, rfl, hacc⟩ | ⟨halt, hglobal, hacc⟩⟩ := buildVerb_ok h
  · have hle : st.nextId ≤ st'.nextId := by rw [hnext, hnew.nextId]; omega
    have hgrows : st.Grows st' := by
      refine ⟨hle, ⟨?_, ?_, fun u hu => ?_⟩, fun u hu => ?_, fun u hu => ?_⟩
      · rw [hacc.level, hst.level]
      · rw [hacc.alternative, hst.alternative, Bool.false_or, ← Bool.not_eq_true]
        exact fun hpre => hacc.level_ne hpre hst.level
      · rcases List.mem_append.mp (hacc.subset hu) with hu | hu
        · exact (hst.lt u hu).trans_le hle
        · rw [List.mem_singleton.mp hu, hnew.id, hnext, hnew.nextId]
          omega
      · rcases List.mem_append.mp (hacc.subset hu) with hu | hu
        · exact Or.inl hu
        · rw [List.mem_singleton.mp hu, hnew.id, hnext, hnew.nextId]
          exact Or.inr ⟨le_rfl, by omega⟩
      · exact hacc.units u (List.mem_append_left _ hu)
    refine ⟨hgrows, fun hlo hown u hu hsel => (hown u hu hsel).mono le_rfl hgrows,
      fun u hu _ => hu, by simp [halt], ?_, ?_, ?_, ?_⟩
    · simp [ownVerbs, halt, writesUnit]
    · simp [ownVerbs, halt, writesLayer]
    · rw [hacc.hasUnit_eq, hnew.isUnit]
      simp [globalVerbs, halt, writesUnit]
    · rw [hacc.inLayer, hnew.isLayer]
      simp [globalVerbs, halt, writesLayer]
  · have hle : st.nextId ≤ st'.nextId := by rw [hnext, hnew.nextId]; omega
    have hgrows : st.Grows st' := hst.grows_of_global hle hglobal
    refine ⟨hgrows, fun hlo hown u hu hsel => ?_,
      fun u hu => hacc.units u (List.mem_append_left _ hu), ?_, ?_, ?_, ?_, ?_⟩
    · rcases List.mem_append.mp (hacc.subset hu) with hu | hu
      · exact (hown u hu hsel).mono le_rfl hgrows
      · -- The new verb takes an address that no verb of the global context has.
        rw [List.mem_singleton.mp hu]
        refine Or.inr ⟨by rw [hnew.id]; exact hlo, by rw [hnew.id, hnext, hnew.nextId]; omega,
          fun x hx => ?_⟩
        rw [hglobal] at hx
        have hlt := hst.lt x hx
        rw [hnew.id]
        omega
    · rw [hacc.alternative, hnew.isPreamble]
      simp
    · rw [hacc.hasUnit_eq, hnew.isUnit]
      simp [ownVerbs, halt, writesUnit]
    · rw [hacc.inLayer, hnew.isLayer]
      simp [ownVerbs, halt, writesLayer]
    · simp [hglobal, globalVerbs, halt, writesUnit]
    · simp [hglobal, globalVerbs, halt, writesLayer]

/-- After the first verb, the others are written after `preamble` if it was one. -/
theorem ownVerbs_cons (alternative : Bool) (w : WrittenVerb) (ws : List WrittenVerb) :
    ownVerbs alternative (w :: ws) =
      ownVerbs alternative [w] ++ ownVerbs (alternative || w.isPreamble) ws := by
  cases alternative with
  | true => cases ws <;> simp [ownVerbs]
  | false => simp [ownVerbs]

theorem globalVerbs_cons (alternative : Bool) (w : WrittenVerb) (ws : List WrittenVerb) :
    globalVerbs alternative (w :: ws) =
      globalVerbs alternative [w] ++ globalVerbs (alternative || w.isPreamble) ws := by
  cases alternative <;> simp [globalVerbs]

/-- **The verbs of a statement**, by induction over them. -/
theorem buildVerbs_built {ws : List WrittenVerb} {st st' : ParserState}
    {ctx ctx' : ParserContext} (hst : st.Valid)
    (h : buildVerbs st ctx ws = .ok (st', ctx')) : VerbsBuilt ws st ctx st' ctx' := by
  induction ws generalizing st ctx with
  | nil =>
    obtain ⟨rfl, rfl⟩ := Prod.mk.inj (Except.ok.inj h)
    exact ⟨hst.refl, fun _ hown => hown, fun _ hu _ => hu, by simp, by simp [ownVerbs, writesUnit],
      by simp [ownVerbs, writesLayer], by simp [globalVerbs, writesUnit],
      by simp [globalVerbs, writesLayer]⟩
  | cons w ws ih =>
    obtain ⟨⟨st₁, ctx₁⟩, hw, h⟩ := Fallible.bind_eq_ok.mp h
    have h₁ := buildVerb_built hst hw
    have h₂ := ih h₁.grows.valid h
    have halt : ctx₁.alternative = (ctx.alternative || w.isPreamble) := by
      simpa using h₁.alternative
    refine ⟨h₁.grows.trans h₂.grows, fun hlo hown => ?_, fun u hu hunit => ?_, ?_, ?_, ?_, ?_, ?_⟩
    · exact h₂.owned (hlo.trans h₁.grows.le) (h₁.owned hlo hown)
    · exact h₂.units u (h₁.units u hu hunit) hunit
    · rw [h₂.alternative, halt, List.any_cons, Bool.or_assoc]
    · rw [h₂.hasUnit, h₁.hasUnit, halt, ownVerbs_cons _ w ws]
      simp [writesUnit, Bool.or_assoc]
    · rw [h₂.inLayer, h₁.inLayer, halt, ownVerbs_cons _ w ws]
      simp [writesLayer, Bool.or_assoc]
    · rw [h₂.globalUnit, h₁.globalUnit, halt, globalVerbs_cons _ w ws]
      simp [writesUnit, Bool.or_assoc]
    · rw [h₂.globalLayer, h₁.globalLayer, halt, globalVerbs_cons _ w ws]
      simp [writesLayer, Bool.or_assoc]

/-! ### The end of a statement -/

theorem BuiltStatement.mem_selectors {b : BuiltStatement} {v : ParsedVerb} :
    v ∈ b.selectors ↔ v ∈ b.verbs ∧ v.form.isSelector = true :=
  List.mem_filter

theorem BuiltStatement.mem_selectors_of_isUnit {b : BuiltStatement} {v : ParsedVerb}
    (hv : v ∈ b.verbs) (hunit : v.form.isUnit = true) : v ∈ b.selectors :=
  mem_selectors.mpr ⟨hv, VerbForm.isSelector_of_isUnit hunit⟩

/-- The state after a stage that leaves the unit verbs and the layer block of the global
context as they are. -/
structure ParserState.Keeps (st st' : ParserState) : Prop where
  grows : st.Grows st'
  hasUnit : hasUnit st'.global.command = hasUnit st.global.command
  inLayer : st'.global.inLayer = st.global.inLayer

theorem ParserState.Keeps.trans {st₁ st₂ st₃ : ParserState} (h : st₁.Keeps st₂)
    (h' : st₂.Keeps st₃) : st₁.Keeps st₃ :=
  ⟨h.grows.trans h'.grows, h'.hasUnit.trans h.hasUnit, h'.inLayer.trans h.inLayer⟩

/-- Addresses are taken, and the global context stays. -/
theorem ParserState.Valid.keeps_of_global {st st' : ParserState} (h : st.Valid)
    (hle : st.nextId ≤ st'.nextId) (hglobal : st'.global = st.global) : st.Keeps st' :=
  ⟨h.grows_of_global hle hglobal, by rw [hglobal], by rw [hglobal]⟩

section Finish

variable {st : ParserState} (hst : st.Valid) (ctx : ParserContext) (span : Span)
include hst

theorem addDefaultTypeFilter_keeps (types : List ℤ) :
    st.Keeps (st.addDefaultTypeFilter ctx span types).1 := by
  unfold ParserState.addDefaultTypeFilter ParserState.extendVerb
  split
  · exact hst.keeps_of_global le_rfl rfl
  split
  · set v : ParsedVerb := ⟨st.nextId, span, .defaultTypeFilter types⟩ with hv
    have hsub : ∀ u ∈ addVerb st.global.command v, u ∈ st.global.command ∨ u = v :=
      fun u hu => by simpa using addVerb_subset _ _ hu
    have hunits : ∀ u ∈ st.global.command, u.form.isUnit = true →
        u ∈ addVerb st.global.command v :=
      fun u hu hunit => mem_addVerb_of_isUnit (List.mem_append_left _ hu) hunit
    refine ⟨⟨Nat.le_succ _, ⟨hst.level, hst.alternative, fun u hu => ?_⟩, fun u hu => ?_,
      hunits⟩, ?_, rfl⟩
    · rcases hsub u hu with hu | rfl
      · exact (hst.lt u hu).trans (Nat.lt_succ_self _)
      · exact Nat.lt_succ_self _
    · rcases hsub u hu with hu | rfl
      · exact Or.inl hu
      · exact Or.inr ⟨le_rfl, Nat.lt_succ_self _⟩
    · rw [Bool.eq_iff_iff, hasUnit_iff, hasUnit_iff]
      constructor
      · rintro ⟨u, hu, hunit⟩
        rcases hsub u hu with hu | rfl
        · exact ⟨u, hu, hunit⟩
        · exact absurd ((VerbForm.isUnit_iff _).mp hunit) (by simp [hv])
      · rintro ⟨u, hu, hunit⟩
        exact ⟨u, hunits u hu hunit, hunit⟩
  · exact hst.keeps_of_global (Nat.le_succ _) rfl

omit hst in
/-- The type filter is no selector. -/
theorem mem_of_mem_addDefaultTypeFilter {types : List ℤ} {v : ParsedVerb}
    (hv : v ∈ (st.addDefaultTypeFilter ctx span types).2.command)
    (hsel : v.form.isSelector = true) : v ∈ ctx.command := by
  unfold ParserState.addDefaultTypeFilter ParserState.extendVerb at hv
  split at hv
  · exact hv
  split at hv
  · exact hv
  · rcases List.mem_append.mp (addVerb_subset _ _ hv) with hv | hv
    · exact hv
    · rw [List.mem_singleton.mp hv] at hsel
      cases types <;> cases hsel

omit hst in
theorem mem_addDefaultTypeFilter_of_isUnit {types : List ℤ} {v : ParsedVerb}
    (hv : v ∈ ctx.command) (hunit : v.form.isUnit = true) :
    v ∈ (st.addDefaultTypeFilter ctx span types).2.command := by
  unfold ParserState.addDefaultTypeFilter ParserState.extendVerb
  split
  · exact hv
  split
  · exact hv
  · exact mem_addVerb_of_isUnit (List.mem_append_left _ hv) hunit

theorem takeCommand_keeps : st.Keeps (st.takeCommand ctx span).1 := by
  unfold ParserState.takeCommand
  split
  · exact hst.keeps_of_global le_rfl rfl
  · exact hst.keeps_of_global (Nat.le_succ _) rfl

omit hst in
/-- A selector of the command is one of the context, or the new unit verb. -/
theorem mem_of_mem_takeCommand {v : ParsedVerb} (hv : v ∈ (st.takeCommand ctx span).2) :
    v ∈ ctx.command ∨ v.id = st.nextId ∧ (st.takeCommand ctx span).1.nextId = st.nextId + 1 := by
  unfold ParserState.takeCommand at hv ⊢
  split at hv
  · exact Or.inl hv
  · next hnone =>
    rw [if_neg hnone]
    rcases List.mem_append.mp (addVerb_subset _ _ hv) with hv | hv
    · exact Or.inl hv
    · rw [List.mem_singleton.mp hv]
      exact Or.inr ⟨rfl, rfl⟩

omit hst in
theorem mem_takeCommand_of_isUnit {v : ParsedVerb} (hv : v ∈ ctx.command)
    (hunit : v.form.isUnit = true) : v ∈ (st.takeCommand ctx span).2 := by
  unfold ParserState.takeCommand
  split
  · exact hv
  · exact mem_addVerb_of_isUnit (List.mem_append_left _ hv) hunit

end Finish

/-- What the end of a statement gives: the selectors are those of its context, or the one
that is added when there is none. -/
structure Finished (st : ParserState) (ctx : ParserContext) (st' : ParserState)
    (b : BuiltStatement) : Prop where
  keeps : st.Keeps st'
  selectors : ∀ v ∈ b.selectors, v ∈ ctx.command ∨ Owned [] st.nextId st' v
  units : ∀ u ∈ ctx.command, u.form.isUnit = true → u ∈ b.selectors

theorem finishStatement_finished {st : ParserState} (hst : st.Valid) (ctx : ParserContext)
    (span : Span) (types : List ℤ) (rel : RelationshipType) (parent : Option ℕ) :
    Finished st ctx (st.finishStatement ctx span types rel parent).1
      (st.finishStatement ctx span types rel parent).2 := by
  have hfilter := addDefaultTypeFilter_keeps hst ctx span types
  have htake := takeCommand_keeps hfilter.grows.valid
    (st.addDefaultTypeFilter ctx span types).2 span
  refine ⟨hfilter.trans htake, fun v hv => ?_, fun u hu hunit => ?_⟩
  · obtain ⟨hmem, hsel⟩ := BuiltStatement.mem_selectors.mp hv
    rcases mem_of_mem_takeCommand _ _ hmem with hmem | ⟨hid, hnext⟩
    · exact Or.inl (mem_of_mem_addDefaultTypeFilter _ _ hmem hsel)
    · refine Or.inr (Or.inr ⟨?_, ?_, fun w hw => ?_⟩)
      · rw [hid]
        exact hfilter.grows.le
      · show v.id < _
        rw [hid]
        exact (Nat.lt_succ_self _).trans_le hnext.ge
      · have hglobal : (st.finishStatement ctx span types rel parent).1.global =
            (st.addDefaultTypeFilter ctx span types).1.global := by
          show ((st.addDefaultTypeFilter ctx span types).1.takeCommand _ span).1.global = _
          unfold ParserState.takeCommand
          split <;> rfl
        rw [hglobal] at hw
        have hlt := hfilter.grows.valid.lt w hw
        omega
  · exact BuiltStatement.mem_selectors_of_isUnit
      (mem_takeCommand_of_isUnit _ _ (mem_addDefaultTypeFilter_of_isUnit _ _ hu hunit) hunit) hunit

/-! ### Statements apart -/

/-- Two statements have no selector in common. -/
def BuiltStatement.Apart (b c : BuiltStatement) : Prop :=
  ∀ u ∈ b.selectors, ∀ v ∈ c.selectors, u.id ≠ v.id

/-- Statements that have a unit verb in common are not apart. -/
theorem BuiltStatement.not_apart {b c : BuiltStatement} {u : ParsedVerb} (hb : u ∈ b.selectors)
    (hc : u ∈ c.selectors) : ¬b.Apart c :=
  fun h => h u hb u hc rfl

/-- What a selector made before an address and a selector that is inherited later or made
after it have in common: nothing. -/
theorem Owned.ne {inherited inherited' : List ParsedVerb} {lo lo' : ℕ}
    {st₁ st₂ : ParserState} {u v : ParsedVerb} (hu : Owned inherited lo st₁ u)
    (hnone : hasUnit inherited = false) (hv : Owned inherited' lo' st₂ v)
    (hinh : ∀ w ∈ inherited', w.form.isUnit = true → w ∈ st₂.global.command)
    (hst : st₁.Grows st₂) (hle : st₁.nextId ≤ lo') : u.id ≠ v.id := by
  rcases hu with ⟨hmem, hunit⟩ | ⟨-, hlt, hne⟩
  · rw [← Bool.not_eq_true] at hnone
    exact absurd (hasUnit_iff.mpr ⟨u, hmem, hunit⟩) hnone
  · rcases hv with ⟨hmem, hunit⟩ | ⟨hge, -, -⟩
    · rcases hst.global v (hinh v hmem hunit) with hv | ⟨hge, -⟩
      · exact (hne v hv).symm
      · omega
    · omega

/-- **What a successful build gives**: the statements' selectors are made by it, or are
the unit verbs of the context it starts from, which all statements inherit; verbs after
`preamble` join the global context. -/
structure Built (toGlobal : List WrittenVerb) (ctx : ParserContext) (st st' : ParserState)
    (out : List BuiltStatement) : Prop where
  grows : st.Grows st'
  owned : ∀ b ∈ out, ∀ v ∈ b.selectors, Owned ctx.command st.nextId st' v
  units : ∀ b ∈ out, ∀ u ∈ ctx.command, u.form.isUnit = true → u ∈ b.selectors
  globalUnit : hasUnit st'.global.command = (hasUnit st.global.command || writesUnit toGlobal)
  globalLayer : st'.global.inLayer = (st.global.inLayer || writesLayer toGlobal)

/-- Two builds from the same context, one after the other. -/
theorem Built.append {ws ws' : List WrittenVerb} {ctx : ParserContext}
    {st₁ st₂ st₃ : ParserState} {out out' : List BuiltStatement}
    (h : Built ws ctx st₁ st₂ out) (h' : Built ws' ctx st₂ st₃ out') :
    Built (ws ++ ws') ctx st₁ st₃ (out ++ out') where
  grows := h.grows.trans h'.grows
  owned b hb v hv := by
    rcases List.mem_append.mp hb with hb | hb
    · exact (h.owned b hb v hv).mono le_rfl h'.grows
    · exact (h'.owned b hb v hv).mono h.grows.le h'.grows.valid.refl
  units b hb u hu hunit := by
    rcases List.mem_append.mp hb with hb | hb
    · exact h.units b hb u hu hunit
    · exact h'.units b hb u hu hunit
  globalUnit := by
    rw [h'.globalUnit, h.globalUnit]
    simp [writesUnit, Bool.or_assoc]
  globalLayer := by
    rw [h'.globalLayer, h.globalLayer]
    simp [writesLayer, Bool.or_assoc]

/-- Without an inherited unit verb they are apart from each other. -/
theorem Built.apart {ws ws' : List WrittenVerb} {ctx : ParserContext}
    {st₁ st₂ st₃ : ParserState} {out out' : List BuiltStatement}
    (h : Built ws ctx st₁ st₂ out) (h' : Built ws' ctx st₂ st₃ out')
    (hnone : hasUnit ctx.command = false) : ∀ b ∈ out, ∀ c ∈ out', b.Apart c := by
  intro b hb c hc u hu v hv
  refine (h.owned b hb u hu).ne hnone (h'.owned c hc v hv) (fun w hw hunit => ?_) h'.grows le_rfl
  rw [← Bool.not_eq_true] at hnone
  exact absurd (hasUnit_iff.mpr ⟨w, hw, hunit⟩) hnone

theorem Built.pairwise_append {ws ws' : List WrittenVerb} {ctx : ParserContext}
    {st₁ st₂ st₃ : ParserState} {out out' : List BuiltStatement}
    (h : Built ws ctx st₁ st₂ out) (h' : Built ws' ctx st₂ st₃ out')
    (hnone : hasUnit ctx.command = false) :
    (out ++ out').Pairwise BuiltStatement.Apart ↔
      out.Pairwise BuiltStatement.Apart ∧ out'.Pairwise BuiltStatement.Apart := by
  rw [List.pairwise_append]
  exact ⟨fun ⟨h₁, h₂, _⟩ => ⟨h₁, h₂⟩, fun ⟨h₁, h₂⟩ => ⟨h₁, h₂, h.apart h' hnone⟩⟩

/-! ### One statement -/

section Statement

variable {st st₁ st₂ st' : ParserState} {ctx sub : ParserContext} {vs : List WrittenVerb}
  {b : BuiltStatement}

/-- The verbs of a statement start from a derived context. -/
theorem VerbsBuilt.owned_of_derive (hst : st.Valid)
    (hverbs : VerbsBuilt vs (st.derive ctx).1 (st.derive ctx).2 st₁ sub) :
    ∀ v ∈ sub.command, v.form.isSelector = true → Owned ctx.command st.nextId st₁ v :=
  hverbs.owned (derive_grows hst ctx).le fun _ hv hsel => derive_owned hst hv hsel

/-- The statement itself, whatever was built between its verbs and its end. -/
theorem built_self (hst : st.Valid)
    (hverbs : VerbsBuilt vs (st.derive ctx).1 (st.derive ctx).2 st₁ sub) (ws : List WrittenVerb)
    (hgrows : st₁.Grows st₂)
    (hunit : hasUnit st₂.global.command = (hasUnit st₁.global.command || writesUnit ws))
    (hlayer : st₂.global.inLayer = (st₁.global.inLayer || writesLayer ws))
    (hfin : Finished st₂ sub st' b) :
    Built (globalVerbs ctx.alternative vs ++ ws) ctx st st' [b] where
  grows := (derive_grows hst ctx).trans (hverbs.grows.trans (hgrows.trans hfin.keeps.grows))
  owned c hc v hv := by
    rw [List.mem_singleton.mp hc] at hv
    have hsel := (BuiltStatement.mem_selectors.mp hv).2
    rcases hfin.selectors v hv with hmem | hnew
    · exact (hverbs.owned_of_derive hst v hmem hsel).mono le_rfl
        (hgrows.trans hfin.keeps.grows)
    · rcases hnew with ⟨hmem, -⟩ | ⟨hge, hlt, hne⟩
      · cases hmem
      · have hle := ((derive_grows hst ctx).trans (hverbs.grows.trans hgrows)).le
        exact Or.inr ⟨hle.trans hge, hlt, hne⟩
  units c hc u hu hunit := by
    rw [List.mem_singleton.mp hc]
    exact hfin.units u (hverbs.units u (mem_deriveVerbs_of_isUnit hu hunit) hunit) hunit
  globalUnit := by
    rw [hfin.keeps.hasUnit, hunit, hverbs.globalUnit]
    simp [writesUnit, ParserState.derive, Bool.or_assoc]
  globalLayer := by
    rw [hfin.keeps.inLayer, hlayer, hverbs.globalLayer]
    simp [writesLayer, ParserState.derive, Bool.or_assoc]

/-- The statements of a scope, as statements of the context of the statement whose scope
it is. -/
theorem Built.of_scope (hst : st.Valid)
    (hverbs : VerbsBuilt vs (st.derive ctx).1 (st.derive ctx).2 st₁ sub)
    {ws : List WrittenVerb} {children : List BuiltStatement}
    (h : Built ws sub.enterScope st₁ st₂ children) (hfin : st₂.Grows st') :
    (∀ c ∈ children, ∀ v ∈ c.selectors, Owned ctx.command st.nextId st' v) ∧
      ∀ c ∈ children, ∀ u ∈ ctx.command, u.form.isUnit = true → u ∈ c.selectors := by
  constructor
  · intro c hc v hv
    rcases h.owned c hc v hv with ⟨hmem, hunit⟩ | hnew
    · exact (hverbs.owned_of_derive hst v hmem (VerbForm.isSelector_of_isUnit hunit)).mono le_rfl
        (h.grows.trans hfin)
    · have hle := ((derive_grows hst ctx).trans hverbs.grows).le
      have howned : Owned ctx.command st₁.nextId st₂ v := Or.inr hnew
      exact howned.mono hle hfin
  · intro c hc u hu hunit
    exact h.units c hc u (hverbs.units u (mem_deriveVerbs_of_isUnit hu hunit) hunit) hunit

/-- The statement and those of its scope are apart when the scope inherits no unit verb. -/
theorem apart_of_scope (hst : st.Valid)
    (hverbs : VerbsBuilt vs (st.derive ctx).1 (st.derive ctx).2 st₁ sub)
    {ws : List WrittenVerb} {children : List BuiltStatement}
    (h : Built ws sub.enterScope st₁ st₂ children) (hfin : Finished st₂ sub st' b)
    (hnone : hasUnit sub.command = false) : ∀ c ∈ children, b.Apart c := by
  intro c hc u hu v hv
  have hunits : ∀ w ∈ sub.command, w.form.isUnit = true → w ∈ st₂.global.command := by
    intro w hw hunit
    rw [← Bool.not_eq_true] at hnone
    exact absurd (hasUnit_iff.mpr ⟨w, hw, hunit⟩) hnone
  have hv' := h.owned c hc v hv
  have hsel := (BuiltStatement.mem_selectors.mp hu).2
  rcases hfin.selectors u hu with hmem | hnew
  · -- A selector that was there before the scope.
    have hinh : hasUnit ctx.command = false := by
      have := hverbs.hasUnit
      rw [hnone, hasUnit_derive] at this
      exact (Bool.or_eq_false_iff.mp this.symm).1
    exact (hverbs.owned_of_derive hst u hmem hsel).ne hinh hv' hunits h.grows le_rfl
  · -- The unit verb that is added after the scope.
    rcases hnew with ⟨hmem, -⟩ | ⟨hge, -, -⟩
    · cases hmem
    · rcases hv' with ⟨hmem, hunit⟩ | ⟨-, hlt, -⟩
      · rw [← Bool.not_eq_true] at hnone
        exact absurd (hasUnit_iff.mpr ⟨v, hmem, hunit⟩) hnone
      · omega

end Statement

/-! ### The statements of a scope -/

/-- A statement without a scope. -/
theorem buildStatement_verbs_built {st st' : ParserState} {ctx : ParserContext}
    {parent : Option ℕ} {pos : ℕ} {span : Span} {vs : List WrittenVerb}
    {out : List BuiltStatement} (hst : st.Valid)
    (h : buildStatement st ctx parent pos (.verbs span vs) = .ok (st', out)) :
    Built (globalVerbs ctx.alternative vs) ctx st st' out ∧ out ≠ [] ∧
      out.Pairwise BuiltStatement.Apart := by
  obtain ⟨st₁, sub, types, rel, hverbs, rfl, rfl⟩ := buildStatement_verbs_ok h
  have hbuilt := buildVerbs_built (derive_grows hst ctx).valid hverbs
  have hself := built_self hst hbuilt [] hbuilt.grows.valid.refl (by simp [writesUnit])
    (by simp [writesLayer])
    (finishStatement_finished hbuilt.grows.valid sub span types rel parent)
  rw [List.append_nil] at hself
  exact ⟨hself, List.cons_ne_nil _ _, List.pairwise_singleton _ _⟩

/-- The statement of an empty scope. -/
theorem buildEmptyStatement_built {st : ParserState} (hst : st.Valid) (ctx : ParserContext)
    (span : Span) (parent : Option ℕ) :
    Built [] ctx st (st.buildEmptyStatement ctx span parent).1
      [(st.buildEmptyStatement ctx span parent).2] := by
  have hfin := finishStatement_finished (derive_grows hst ctx).valid (st.derive ctx).2 span
    ((st.derive ctx).2.defaultSymbolTypes.getD []) (st.derive ctx).2.relationshipType parent
  have hverbs : VerbsBuilt [] (st.derive ctx).1 (st.derive ctx).2 (st.derive ctx).1
      (st.derive ctx).2 := buildVerbs_built (derive_grows hst ctx).valid rfl
  exact built_self hst hverbs [] hverbs.grows.valid.refl (by simp [writesUnit])
    (by simp [writesLayer]) ⟨hfin.keeps, hfin.selectors, hfin.units⟩

mutual

/-- **Statements are apart exactly when no unit verb is handed down**, by induction along
the syntax: what one statement does is one case, and the statements of its scope are the
induction hypothesis. -/
theorem buildStatement_built : ∀ (s : StatementSyntax) {st st' : ParserState}
    {ctx : ParserContext} {parent : Option ℕ} {pos : ℕ} {out : List BuiltStatement},
    st.Valid → buildStatement st ctx parent pos s = .ok (st', out) →
    Built (s.globalVerbs ctx.alternative) ctx st st' out ∧ out ≠ [] ∧
      (out.Pairwise BuiltStatement.Apart ↔
        s.shares ctx.alternative (hasUnit ctx.command) ctx.inLayer = false)
  | .verbs span vs, st, st', ctx, parent, pos, out, hst, h => by
    obtain ⟨hbuilt, hne, hapart⟩ := buildStatement_verbs_built hst h
    exact ⟨hbuilt, hne, iff_of_true hapart rfl⟩
  | .scoped span vs scopeSpan body, st, st', ctx, parent, pos, out, hst, h => by
    obtain ⟨st₁, sub, st₂, children, types, rel, hverbs, hscope, rfl, rfl⟩ :=
      buildStatement_scoped_ok h
    have hbuilt := buildVerbs_built (derive_grows hst ctx).valid hverbs
    obtain ⟨hchildren, hne, hpair⟩ := buildScope_built body hbuilt.grows.valid hscope
    have hfin := finishStatement_finished hchildren.grows.valid sub span types rel parent
    have hself := built_self hst hbuilt _ hchildren.grows hchildren.globalUnit hchildren.globalLayer
      hfin
    have halt : sub.alternative = (ctx.alternative || vs.any (·.isPreamble)) := hbuilt.alternative
    have hunit : hasUnit sub.command =
        (hasUnit ctx.command || writesUnit (ownVerbs ctx.alternative vs)) := by
      rw [hbuilt.hasUnit, hasUnit_derive]
      rfl
    have hlayer : sub.inLayer = (ctx.inLayer || writesLayer (ownVerbs ctx.alternative vs)) :=
      hbuilt.inLayer
    have hglobal : sub.enterScope.alternative = sub.alternative := rfl
    rw [hglobal, halt] at hself hpair
    refine ⟨?_, List.cons_ne_nil _ _, ?_⟩
    · obtain ⟨howned, hunits⟩ := hchildren.of_scope hst hbuilt hfin.keeps.grows
      refine ⟨hself.grows, ?_, ?_, hself.globalUnit, hself.globalLayer⟩
      · intro c hc v hv
        rcases List.mem_cons.mp hc with rfl | hc
        · exact hself.owned _ List.mem_cons_self v hv
        · split at hc
          · cases hc
          · exact howned c hc v hv
      · intro c hc u hu hu'
        rcases List.mem_cons.mp hc with rfl | hc
        · exact hself.units _ List.mem_cons_self u hu hu'
        · split at hc
          · cases hc
          · exact hunits c hc u hu hu'
    · rw [StatementSyntax.shares, ← hlayer, ← hunit]
      cases hl : sub.inLayer with
      | true => simp
      | false =>
        rw [if_neg Bool.false_ne_true, List.pairwise_cons]
        cases hu : hasUnit sub.command with
        | true =>
          -- The scope starts with a unit verb of the statement.
          obtain ⟨c, hc⟩ := List.exists_mem_of_ne_nil _ hne
          obtain ⟨u, hmem, hunit'⟩ := hasUnit_iff.mp hu
          have hshared : ¬BuiltStatement.Apart
              (st₂.finishStatement sub span types rel parent).2 c :=
            BuiltStatement.not_apart (hfin.units u hmem hunit')
              (hchildren.units c hc u hmem hunit')
          simp only [Bool.not_false, Bool.true_or, Bool.and_self, Bool.true_eq_false, iff_false,
            not_and]
          exact fun hall => absurd (hall c hc) hshared
        | false =>
          rw [hpair hu hl]
          simp only [Bool.not_false, Bool.false_or, Bool.true_and, and_iff_right_iff_imp]
          exact fun _ => apart_of_scope hst hbuilt hchildren hfin hu

/-- The scope of a statement. -/
theorem buildScope_built : ∀ (body : StatementsSyntax) {st st' : ParserState}
    {ctx : ParserContext} {span : Span} {pos : ℕ} {out : List BuiltStatement},
    st.Valid → buildScope st ctx span pos body = .ok (st', out) →
    Built (body.globalVerbs ctx.alternative) ctx st st' out ∧ out ≠ [] ∧
      (hasUnit ctx.command = false → ctx.inLayer = false →
        (out.Pairwise BuiltStatement.Apart ↔ body.shares ctx.alternative = false))
  | .nil, st, st', ctx, span, pos, out, hst, h => by
    rw [buildScope] at h
    obtain ⟨rfl, rfl⟩ := Prod.mk.inj (Fallible.pure_eq_ok.mp h)
    exact ⟨buildEmptyStatement_built hst ctx span (some pos), List.cons_ne_nil _ _,
      fun _ _ => iff_of_true (List.pairwise_singleton _ _) rfl⟩
  | .cons s rest, st, st', ctx, span, pos, out, hst, h => by
    obtain ⟨st₁, out₁, out₂, hs, hrest, rfl⟩ := buildScope_cons_ok h
    obtain ⟨hb, hne, hp⟩ := buildStatement_built s hst hs
    obtain ⟨hb', hp'⟩ := buildStatements_built rest hb.grows.valid hrest
    refine ⟨hb.append hb', List.append_ne_nil_of_left_ne_nil hne _, fun hunit hlayer => ?_⟩
    rw [hb.pairwise_append hb' hunit, hp, hp' hunit hlayer, hunit, hlayer,
      StatementsSyntax.shares, Bool.or_eq_false_iff]

/-- The statements of a scope, one after the other. -/
theorem buildStatements_built : ∀ (body : StatementsSyntax) {st st' : ParserState}
    {ctx : ParserContext} {parent : Option ℕ} {pos : ℕ} {out : List BuiltStatement},
    st.Valid → buildStatements st ctx parent pos body = .ok (st', out) →
    Built (body.globalVerbs ctx.alternative) ctx st st' out ∧
      (hasUnit ctx.command = false → ctx.inLayer = false →
        (out.Pairwise BuiltStatement.Apart ↔ body.shares ctx.alternative = false))
  | .nil, st, st', ctx, parent, pos, out, hst, h => by
    rw [buildStatements] at h
    obtain ⟨rfl, rfl⟩ := Prod.mk.inj (Fallible.pure_eq_ok.mp h)
    exact ⟨⟨hst.refl, by simp, by simp, by simp [StatementsSyntax.globalVerbs, writesUnit],
      by simp [StatementsSyntax.globalVerbs, writesLayer]⟩, fun _ _ => iff_of_true .nil rfl⟩
  | .cons s rest, st, st', ctx, parent, pos, out, hst, h => by
    obtain ⟨st₁, out₁, out₂, hs, hrest, rfl⟩ := buildStatements_cons_ok h
    obtain ⟨hb, -, hp⟩ := buildStatement_built s hst hs
    obtain ⟨hb', hp'⟩ := buildStatements_built rest hb.grows.valid hrest
    refine ⟨hb.append hb', fun hunit hlayer => ?_⟩
    rw [hb.pairwise_append hb' hunit, hp, hp' hunit hlayer, hunit, hlayer,
      StatementsSyntax.shares, Bool.or_eq_false_iff]

end

/-! ### The statements of a query -/

/-- A statement has no selector in common with the global context. -/
def BuiltStatement.ApartFromGlobal (st : ParserState) (b : BuiltStatement) : Prop :=
  ∀ v ∈ b.selectors, ∀ w ∈ st.global.command, w.form.isSelector = true → w.id ≠ v.id

/-- What the statements of a query give: here the unit verbs they inherit are those that
the global context ends up with. -/
structure TopBuilt (query : StatementsSyntax) (st st' : ParserState)
    (out : List BuiltStatement) : Prop where
  grows : st.Grows st'
  owned : ∀ b ∈ out, ∀ v ∈ b.selectors, Owned st'.global.command st.nextId st' v
  units : ∀ b ∈ out, ∀ u ∈ st.global.command, u.form.isUnit = true → u ∈ b.selectors
  ne_nil : query.isNil = false → out ≠ []
  nil : query.isNil = true → out = []
  apart : out.Pairwise BuiltStatement.Apart ↔
    query.sharesFrom (hasUnit st.global.command) st.global.inLayer = false
  apartWithRoot : (∀ b ∈ out, b.ApartFromGlobal st') ∧ out.Pairwise BuiltStatement.Apart ↔
    query.sharesWithRoot (hasUnit st.global.command) st.global.inLayer = false

/-- One statement, and the statements after it. -/
theorem TopBuilt.cons {s : StatementSyntax} {rest : StatementsSyntax} {st st₁ st' : ParserState}
    {out₁ out₂ : List BuiltStatement}
    (hb : Built (s.globalVerbs false) st.global st st₁ out₁) (hne : out₁ ≠ [])
    (hp : out₁.Pairwise BuiltStatement.Apart ↔
      s.shares false (hasUnit st.global.command) st.global.inLayer = false)
    (ht : TopBuilt rest st₁ st' out₂) : TopBuilt (.cons s rest) st st' (out₁ ++ out₂) := by
  have hlater : ∀ b ∈ out₁, ∀ v ∈ b.selectors, Owned st.global.command st.nextId st' v :=
    fun b hb' v hv => (hb.owned b hb' v hv).mono le_rfl ht.grows
  have happend : (out₁ ++ out₂).Pairwise BuiltStatement.Apart ↔
      (out₁.Pairwise BuiltStatement.Apart ∧ out₂.Pairwise BuiltStatement.Apart) ∧
        (hasUnit st.global.command && !rest.isNil) = false := by
    rw [List.pairwise_append, ← and_assoc, and_congr_right_iff]
    intro _
    cases hunit : hasUnit st.global.command with
    | false =>
      refine iff_of_true (fun b hb' c hc u hu v hv => ?_) rfl
      exact (hb.owned b hb' u hu).ne hunit (ht.owned c hc v hv) (fun w hw _ => hw) ht.grows le_rfl
    | true =>
      cases hnil : rest.isNil with
      | true =>
        rw [ht.nil hnil]
        simp
      | false =>
        -- Both statements start with the unit verb of the global context.
        obtain ⟨b, hb'⟩ := List.exists_mem_of_ne_nil _ hne
        obtain ⟨c, hc⟩ := List.exists_mem_of_ne_nil _ (ht.ne_nil hnil)
        obtain ⟨u, hu, hu'⟩ := hasUnit_iff.mp hunit
        have hshared : ¬b.Apart c := BuiltStatement.not_apart (hb.units b hb' u hu hu')
          (ht.units c hc u (hb.grows.units u hu hu') hu')
        exact iff_of_false (fun hall => hshared (hall b hb' c hc)) (by simp)
  refine ⟨hb.grows.trans ht.grows, ?_, ?_, fun _ => List.append_ne_nil_of_left_ne_nil hne _,
    by simp [StatementsSyntax.isNil], ?_, ?_⟩
  · intro b hb' v hv
    rcases List.mem_append.mp hb' with hb' | hb'
    · rcases hlater b hb' v hv with ⟨hmem, hunit⟩ | hnew
      · exact Or.inl ⟨(hb.grows.trans ht.grows).units v hmem hunit, hunit⟩
      · exact Or.inr hnew
    · exact (ht.owned b hb' v hv).mono hb.grows.le ht.grows.valid.refl
  · intro b hb' u hu hunit
    rcases List.mem_append.mp hb' with hb' | hb'
    · exact hb.units b hb' u hu hunit
    · exact ht.units b hb' u (hb.grows.units u hu hunit) hunit
  · rw [happend, hp, ht.apart, hb.globalUnit, hb.globalLayer, StatementsSyntax.sharesFrom,
      Bool.or_eq_false_iff, Bool.or_eq_false_iff]
    tauto
  · rw [happend, hp, StatementsSyntax.sharesWithRoot, Bool.or_eq_false_iff, Bool.or_eq_false_iff,
      ← hb.globalUnit, ← hb.globalLayer, ← ht.apartWithRoot]
    cases hunit : hasUnit st.global.command with
    | true =>
      -- The statement and the root share the unit verb.
      obtain ⟨b, hb'⟩ := List.exists_mem_of_ne_nil _ hne
      obtain ⟨u, hu, hu'⟩ := hasUnit_iff.mp hunit
      refine iff_of_false (fun h => ?_) (by simp)
      exact h.1 b (List.mem_append_left _ hb') u (hb.units b hb' u hu hu') u
        ((hb.grows.trans ht.grows).units u hu hu') (VerbForm.isSelector_of_isUnit hu') rfl
    | false =>
      have hfirst : ∀ b ∈ out₁, b.ApartFromGlobal st' := by
        intro b hb' v hv w hw _
        rcases hlater b hb' v hv with ⟨hmem, hv'⟩ | ⟨-, -, hne'⟩
        · rw [← Bool.not_eq_true] at hunit
          exact absurd (hasUnit_iff.mpr ⟨v, hmem, hv'⟩) hunit
        · exact hne' w hw
      simp only [List.forall_mem_append, Bool.false_and, and_true]
      tauto

/-- **The statements of a query**, by induction over them. -/
theorem buildTopLevel_built : ∀ (query : StatementsSyntax) {st st' : ParserState} {pos : ℕ}
    {out : List BuiltStatement}, st.Valid → buildTopLevel st pos query = .ok (st', out) →
    TopBuilt query st st' out
  | .nil, st, st', pos, out, hst, h => by
    obtain ⟨rfl, rfl⟩ := Prod.mk.inj (Fallible.pure_eq_ok.mp h)
    exact ⟨hst.refl, by simp, by simp, by simp [StatementsSyntax.isNil], fun _ => rfl,
      iff_of_true .nil rfl, iff_of_true ⟨by simp, .nil⟩ rfl⟩
  | .cons s rest, st, st', pos, out, hst, h => by
    obtain ⟨st₁, out₁, out₂, hs, hrest, rfl⟩ := buildTopLevel_cons_ok h
    obtain ⟨hb, hne, hp⟩ := buildStatement_built s hst hs
    rw [hst.alternative] at hb hp
    exact .cons hb hne hp (buildTopLevel_built rest hb.grows.valid hrest)

/-! ### Entries of the registry -/

/-- Any two selectors of different statements have different addresses. -/
def DistinctSelectors (cs : List Command) : Prop :=
  ∀ i j : Fin cs.length, i ≠ j →
    ∀ u ∈ (cs.get i).selectors, ∀ v ∈ (cs.get j).selectors, u.id ≠ v.id

/-- `ComputeResult::apply`: the selections of a statement's selectors join the registry. -/
def ExecutionContext.addSelections {n : ℕ} (ctx : ExecutionContext n)
    (selections : List (SelectorId × Option Selection)) : ExecutionContext n :=
  selections.foldl (fun ctx r => ctx.setSelection r.1 r.2) ctx

/-- Writing the selections of a statement's selectors changes the selection of no other
statement. -/
def IndependentWrites (cs : List Command) : Prop :=
  ∀ i j : Fin cs.length, i ≠ j → ∀ {n : ℕ} (ctx : ExecutionContext n)
    (selections : List (SelectorId × Option Selection)),
    (∀ r ∈ selections, ∃ u ∈ (cs.get i).selectors, u.id = r.1) →
    gather (ctx.addSelections selections).selection (cs.get j).selectors =
      gather ctx.selection (cs.get j).selectors

/-- Registry entries are not shared between the statements. -/
def OwnEntries (cs : List Command) : Prop := DistinctSelectors cs ∧ IndependentWrites cs

namespace ExecutionContext

variable {n : ℕ}

theorem selection_addSelections_of_ne {ctx : ExecutionContext n}
    {selections : List (SelectorId × Option Selection)} {id : SelectorId}
    (h : ∀ r ∈ selections, r.1 ≠ id) :
    (ctx.addSelections selections).selection id = ctx.selection id := by
  induction selections using List.reverseRecOn with
  | nil => rfl
  | append_singleton rs r ih =>
    rw [addSelections, List.foldl_concat, selection_setSelection, if_neg (h r (by simp)).symm]
    exact ih fun r' hr' => h r' (List.mem_append_left _ hr')

/-- A context in which the selectors of a list have nothing selected. -/
theorem exists_selection_new (vs : List Verb) : ∃ ctx : ExecutionContext 0,
    ∀ v ∈ vs, ctx.selection v.id = some .new := by
  refine ⟨addSelections ⟨∅, ∅, ⟨[], [], rfl, by simp⟩, fun _ => [], fun _ => []⟩
    (vs.map fun v => (v.id, some .new)), ?_⟩
  induction vs using List.reverseRecOn with
  | nil => simp
  | append_singleton vs w ih =>
    intro v hv
    rw [List.map_append, addSelections, List.foldl_append]
    simp only [List.map_singleton, List.foldl_cons, List.foldl_nil, selection_setSelection]
    split
    · rfl
    · next hne =>
      rcases List.mem_append.mp hv with hv | hv
      · exact ih v hv
      · exact absurd (congrArg Verb.id (List.mem_singleton.mp hv)) hne

end ExecutionContext

/-- A selection with a node. -/
private theorem exists_node : ∃ s : Selection, s.nodes ≠ [] :=
  ⟨⟨[⟨⟨0, [], [], 0, 0, [], 0⟩, ⟨0, 0, 0, .empty, 0, 0⟩, ⟨0, 0, [], 0⟩, ⟨0, [], 0⟩⟩], [], [], [],
    []⟩, List.cons_ne_nil _ _⟩

/-- **Writes are independent exactly when the selectors are distinct**: a selector that
two statements share carries what one of them writes to the other. -/
theorem independentWrites_iff (cs : List Command) :
    IndependentWrites cs ↔ DistinctSelectors cs := by
  constructor
  · intro hind i j hij u hu v hv hid
    -- Nothing is selected in one statement; the other one's selector gets a node.
    obtain ⟨ctx, hctx⟩ := ExecutionContext.exists_selection_new (cs.get j).selectors
    obtain ⟨s, hs⟩ := exists_node
    have hafter : ∀ w ∈ (cs.get j).selectors,
        ((ctx.setSelection u.id (some s)).selection w.id).isSome = true := by
      intro w hw
      rw [ExecutionContext.selection_setSelection]
      split
      · rfl
      · rw [hctx w hw]
        rfl
    have hsome := gather_isSome_of_mem_contributing (v := v)
      (by rw [contributing_eq_self hafter]; exact hv)
    obtain ⟨t, ht⟩ := Option.isSome_iff_exists.mp hsome
    have hsame := hind i j hij ctx [(u.id, some s)] (by simpa using ⟨u, hu, rfl⟩)
    have hbefore := hsame.symm.trans ht
    obtain ⟨a, ha⟩ := List.exists_mem_of_ne_nil _ hs
    have hmem : a ∈ t.nodes := by
      rw [gather_nodes ht, contributing_eq_self hafter, nodesOf, List.mem_flatMap]
      refine ⟨v, hv, ?_⟩
      rw [← hid, ExecutionContext.selection_setSelection_self]
      exact ha
    rw [gather_nodes hbefore, contributing_eq_self fun w hw => by rw [hctx w hw]; rfl, nodesOf,
      List.mem_flatMap] at hmem
    obtain ⟨w, hw, hmem⟩ := hmem
    rw [hctx w hw] at hmem
    cases hmem
  · intro hdist i j hij n ctx selections hsel
    refine gather_congr fun v hv => ExecutionContext.selection_addSelections_of_ne fun r hr => ?_
    obtain ⟨u, hu, hid⟩ := hsel r hr
    rw [← hid]
    exact hdist i j hij u hu v hv

theorem ownEntries_iff (cs : List Command) : OwnEntries cs ↔ DistinctSelectors cs :=
  ⟨And.left, fun h => ⟨h, (independentWrites_iff cs).mpr h⟩⟩

/-- The commands of statements have distinct selectors when the statements are apart. -/
theorem distinctSelectors_iff (layerOps : List (SelectorId × List Text))
    (bs : List BuiltStatement) :
    DistinctSelectors (bs.map (·.command layerOps)) ↔ bs.Pairwise BuiltStatement.Apart := by
  have hsymm : ∀ {c d : Command}, (∀ u ∈ c.selectors, ∀ v ∈ d.selectors, u.id ≠ v.id) →
      ∀ u ∈ d.selectors, ∀ v ∈ c.selectors, u.id ≠ v.id :=
    fun h u hu v hv => (h v hv u hu).symm
  have hpair : DistinctSelectors (bs.map (·.command layerOps)) ↔
      (bs.map (·.command layerOps)).Pairwise
        fun c d => ∀ u ∈ c.selectors, ∀ v ∈ d.selectors, u.id ≠ v.id := by
    rw [List.pairwise_iff_get]
    constructor
    · exact fun h i j hij => h i j hij.ne
    · intro h i j hij
      rcases lt_or_gt_of_ne hij with hlt | hgt
      · exact h i j hlt
      · exact hsymm (h j i hgt)
  rw [hpair, List.pairwise_map]
  refine List.Pairwise.iff fun b c => ?_
  simp only [BuiltStatement.selectors_command, List.forall_mem_map, BuiltStatement.Apart]
  rfl

/-! ### The root -/

theorem ParserState.initial_valid : ParserState.initial.Valid :=
  ⟨rfl, rfl, fun _ hv => nomatch hv⟩

/-- The root takes the global context's verbs, or a new unit verb when no selector is
among them. -/
theorem root_apart_iff {query : StatementsSyntax} {st st' : ParserState}
    {out : List BuiltStatement} (ht : TopBuilt query st st' out) {root : BuiltStatement}
    {whole : Span} (hroot : root.verbs = (st'.takeCommand st'.global whole).2) :
    (∀ b ∈ out, root.Apart b) ↔ ∀ b ∈ out, b.ApartFromGlobal st' := by
  have hlt : ∀ b ∈ out, ∀ v ∈ b.selectors, v.id < st'.nextId := by
    intro b hb v hv
    rcases ht.owned b hb v hv with ⟨hmem, -⟩ | ⟨-, hlt, -⟩
    · exact ht.grows.valid.lt v hmem
    · exact hlt
  refine forall₂_congr fun b hb => ?_
  cases hany : st'.global.command.any (·.form.isSelector) with
  | true =>
    have hverbs : root.verbs = st'.global.command := by
      rw [hroot, ParserState.takeCommand, if_pos hany]
    constructor
    · exact fun h v hv w hw hsel =>
        h w (BuiltStatement.mem_selectors.mpr ⟨by rwa [hverbs], hsel⟩) v hv
    · intro h w hw v hv
      obtain ⟨hmem, hsel⟩ := BuiltStatement.mem_selectors.mp hw
      rw [hverbs] at hmem
      exact h v hv w hmem hsel
  | false =>
    have hnone : ∀ w ∈ st'.global.command, w.form.isSelector = true → False := by
      intro w hw hsel
      rw [List.any_eq_false] at hany
      exact hany w hw hsel
    refine iff_of_true (fun w hw v hv => ?_) fun v _ w hw hsel => (hnone w hw hsel).elim
    obtain ⟨hmem, hsel⟩ := BuiltStatement.mem_selectors.mp hw
    rw [hroot] at hmem
    rcases mem_of_mem_takeCommand _ _ hmem with hmem | ⟨hid, -⟩
    · exact (hnone w hmem hsel).elim
    · have hv' := hlt b hb v hv
      omega

/-! ### The queries that share an entry -/

/-- **Which queries keep their registry entries apart**: exactly those in which no unit
verb is handed down, among the statements that are executed and in the whole tree. -/
theorem ownEntries_of_parse {whole : Span} {query : StatementsSyntax} {q : ParsedQuery}
    (h : parse whole query = .ok q) :
    (OwnEntries q.commands ↔ query.sharesFrom false false = false) ∧
      (OwnEntries q.treeCommands ↔ query.sharesWithRoot false false = false) := by
  obtain ⟨⟨st, out⟩, htop, h⟩ := Fallible.bind_eq_ok.mp h
  obtain rfl := Fallible.pure_eq_ok.mp h
  have ht := buildTopLevel_built query ParserState.initial_valid htop
  constructor
  · rw [ownEntries_iff, ParsedQuery.commands, distinctSelectors_iff, ht.apart]
    rfl
  · rw [ownEntries_iff, ParsedQuery.treeCommands, ParsedQuery.commands, ← List.map_cons
      (f := fun b : BuiltStatement => b.command _), distinctSelectors_iff, List.pairwise_cons,
      root_apart_iff ht rfl, ht.apartWithRoot]
    rfl

/-- The verb `"a"`, or another name of one letter, at a place of the query. -/
def writtenName (c : Char) (start : ℕ) : WrittenVerb :=
  ⟨⟨start, start + 3⟩, .verb (.nameSelector (.leaf (.leafName [c])) (some [c]))⟩

/-- The query `_ { "a" }`. -/
def unitScope : StatementsSyntax :=
  .cons (.scoped ⟨0, 9⟩ [⟨⟨0, 1⟩, .verb .unitVerb⟩] ⟨2, 9⟩
    (.cons (.verbs ⟨4, 7⟩ [writtenName 'a' 4]) .nil)) .nil

/-- The query `"a" { "b" }`. -/
def nameScope : StatementsSyntax :=
  .cons (.scoped ⟨0, 11⟩ [writtenName 'a' 0] ⟨4, 11⟩
    (.cons (.verbs ⟨6, 9⟩ [writtenName 'b' 6]) .nil)) .nil

/-- Without a unit verb the two statements own their entries. -/
theorem ownEntries_nameScope : ∃ q, parse ⟨0, 11⟩ nameScope = .ok q ∧ OwnEntries q.commands := by
  have hparse : ∃ q, parse ⟨0, 11⟩ nameScope = .ok q := ⟨_, rfl⟩
  obtain ⟨q, hq⟩ := hparse
  exact ⟨q, hq, (ownEntries_of_parse hq).1.mpr (by decide)⟩

/-- In `_ { "a" }` the two statements share the entry of the unit verb, and what is written
for one of them is read by the other. -/
theorem shared_unitScope : ∃ q, parse ⟨0, 9⟩ unitScope = .ok q ∧
    ¬DistinctSelectors q.commands ∧ ¬IndependentWrites q.commands := by
  let unitVerb : Verb := ⟨0, ⟨0, 1⟩, .unit⟩
  refine ⟨_, rfl, ?_⟩
  rw [independentWrites_iff, and_self]
  intro hdist
  exact hdist ⟨0, by decide⟩ ⟨1, by decide⟩ (by decide) unitVerb List.mem_cons_self unitVerb
    List.mem_cons_self rfl

end Askl
