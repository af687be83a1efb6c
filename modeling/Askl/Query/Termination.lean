import Askl.Query.ComputeRoots
import Mathlib.Algebra.BigOperators.Fin
import Mathlib.Algebra.Order.BigOperators.Group.Finset
import Mathlib.Algebra.Order.BigOperators.Group.List
import Mathlib.Data.DFinsupp.WellFounded

/-!
# Termination of the worklist

Selections shrink, and a selector is given its first selection once; only a forced use
grows, since its parent derives it again with every notification.  Such a growth goes
down the tree, so the statements are ranked lexicographically from the top: what a
statement's forced uses hold, then the notifications the statement may still send.

## Main definitions

* `globalRank` — selectors without a selection, nodes of the others, empty cells.
* `localRank` — the same of one statement's forced uses.
* `duties` — the notifications a statement has yet to send.
* `Stale`, `Scheduled` — forced uses with a selection put aside wait for their pop.

## Main results

* `moves_notify` — what one notification does to the ranks.
* `rank_step` — **every step lowers the rank.**
* `worklist_terminates` — **the worklist runs empty, in whatever order it is popped.**
-/

namespace Askl

open Relation

variable {n : ℕ} {db : Database} {t : StatementTree n}

/-! ### Ranks -/

section Rank

variable (t : StatementTree n) (ctx : ExecutionContext n)

/-- The selectors of a statement that are no forced uses. -/
def ordinarySelectors (i : Fin n) : List Verb :=
  (t.selectors i).filter fun v => !v.kind.isForcedUse

/-- The forced uses of a statement. -/
def forcedUses (i : Fin n) : List Verb := (t.selectors i).filter (·.kind.isForcedUse)

/-- One for a selector without a selection. -/
def unresolved (v : Verb) : ℕ := if (ctx.selection v.id).isSome then 0 else 1

/-- The number of nodes of a selector. -/
def nodeCount (v : Verb) : ℕ := ((ctx.selection v.id).map (·.nodes.length)).getD 0

/-- One for a selector that has nothing put aside. -/
def emptyCell (v : Verb) : ℕ := if (ctx.cell v.id).isSome then 0 else 1

/-- The sum of a weight over selectors of every statement. -/
def weigh (select : Fin n → List Verb) (weight : Verb → ℕ) : ℕ :=
  ∑ i, ((select i).map weight).sum

/-- The rank of the ordinary selectors and of the cells. -/
def globalRank : ℕ × ℕ × ℕ :=
  (weigh (ordinarySelectors t) (unresolved ctx), weigh (ordinarySelectors t) (nodeCount ctx),
    weigh (forcedUses t) (emptyCell ctx))

/-- The rank of one statement's forced uses. -/
def localRank (i : Fin n) : ℕ × ℕ :=
  (((forcedUses t i).map (unresolved ctx)).sum, ((forcedUses t i).map (nodeCount ctx)).sum)

/-- The notifications a statement has yet to send, and one more for being popped. -/
def duties (st : WorkState n) (i : Fin n) : ℕ :=
  (if i ∈ st.worklist then (t.dependents i).length + 1 else 0) +
    (st.queue.filter fun p => p.1 = i).length

/-- The rank of a state. -/
def rank (st : WorkState n) : (ℕ × ℕ × ℕ) × (Fin n → (ℕ × ℕ) × ℕ) :=
  (globalRank t st.ctx, fun i => (localRank t st.ctx i, duties t st i))

end Rank

/-- The lexicographic order of `globalRank`. -/
abbrev GlobalLt : ℕ × ℕ × ℕ → ℕ × ℕ × ℕ → Prop := Prod.Lex (· < ·) (Prod.Lex (· < ·) (· < ·))

/-- The lexicographic order of `localRank`. -/
abbrev LocalLt : ℕ × ℕ → ℕ × ℕ → Prop := Prod.Lex (· < ·) (· < ·)

/-- The order of the ranks: the statements are compared from the top of the tree. -/
def RankLt : (ℕ × ℕ × ℕ) × (Fin n → (ℕ × ℕ) × ℕ) → (ℕ × ℕ × ℕ) × (Fin n → (ℕ × ℕ) × ℕ) → Prop :=
  Prod.Lex GlobalLt (Pi.Lex (· < ·) fun {_} => Prod.Lex LocalLt (· < ·))

theorem wellFounded_rankLt : WellFounded (@RankLt n) := by
  have hnat : WellFounded ((· < ·) : ℕ → ℕ → Prop) := wellFounded_lt
  have hlocal : WellFounded LocalLt := hnat.prod_lex hnat
  exact (hnat.prod_lex (hnat.prod_lex hnat)).prod_lex
    (Pi.Lex.wellFounded (· < ·) fun _ => hlocal.prod_lex hnat)

/-! ### Weights -/

theorem weigh_congr {select : Fin n → List Verb} {g g' : Verb → ℕ}
    (h : ∀ i, ∀ v ∈ select i, g v = g' v) : weigh select g = weigh select g' :=
  Finset.sum_congr rfl fun i _ => congrArg List.sum (List.map_congr_left (h i))

theorem weigh_lt {select : Fin n → List Verb} {g g' : Verb → ℕ}
    (hle : ∀ i, ∀ v ∈ select i, g v ≤ g' v) {i : Fin n} {v : Verb} (hv : v ∈ select i)
    (hlt : g v < g' v) : weigh select g < weigh select g' :=
  Finset.sum_lt_sum (fun i _ => List.sum_le_sum (hle i))
    ⟨i, Finset.mem_univ i, List.sum_lt_sum _ _ (hle i) ⟨v, hv, hlt⟩⟩

theorem mem_ordinarySelectors {i : Fin n} {v : Verb} :
    v ∈ ordinarySelectors t i ↔ v ∈ t.selectors i ∧ v.kind.isForcedUse = false := by
  simp [ordinarySelectors]

theorem mem_forcedUses {i : Fin n} {v : Verb} :
    v ∈ forcedUses t i ↔ v ∈ t.selectors i ∧ v.kind.isForcedUse = true := by
  simp [forcedUses]

/-- A forced use has one statement. -/
theorem eq_of_mem_forcedUses {i j : Fin n} {u v : Verb} (hu : u ∈ forcedUses t i)
    (hv : v ∈ t.selectors j) (h : u.id = v.id) : u = v ∧ i = j := by
  obtain ⟨hu, hforced⟩ := mem_forcedUses.mp hu
  obtain rfl := t.id_inj hu hv h
  refine ⟨rfl, ?_⟩
  by_contra hne
  have hunit := t.id_shared hu hv hne
  simp [VerbKind.isForcedUse, VerbKind.asUse, hunit] at hforced

section Moves

variable {ctx ctx' : ExecutionContext n} {j : Fin n} {v : Verb}

/-- A weight that a change of one selector lowers at that selector, and nowhere raises. -/
private theorem weigh_lt_of_sameExcept {select : Fin n → List Verb}
    (hsub : ∀ i, ∀ w ∈ select i, w ∈ t.selectors i) {g : ExecutionContext n → Verb → ℕ}
    (hg : ∀ w, ctx'.selection w.id = ctx.selection w.id → ctx'.cell w.id = ctx.cell w.id →
      g ctx' w = g ctx w)
    (hsame : SameExcept {v.id} ctx ctx') (hv : v ∈ select j) (hlt : g ctx' v < g ctx v) :
    weigh select (g ctx') < weigh select (g ctx) := by
  refine weigh_lt (fun i w hw => ?_) hv hlt
  by_cases hid : w.id = v.id
  · obtain rfl := t.id_inj (hsub i w hw) (hsub j v hv) hid
    exact hlt.le
  · exact (hg w (hsame.selection _ hid) (hsame.cell _ hid)).le

/-- An ordinary selector's first selection lowers the global rank. -/
theorem globalRank_of_resolved (hsame : SameExcept {v.id} ctx ctx')
    (hv : v ∈ ordinarySelectors t j) (hnone : ctx.selection v.id = none)
    (hsome : (ctx'.selection v.id).isSome = true) :
    GlobalLt (globalRank t ctx') (globalRank t ctx) := by
  refine .left _ _ (weigh_lt_of_sameExcept (g := unresolved)
    (fun i w hw => (mem_ordinarySelectors.mp hw).1) (fun w hs _ => ?_) hsame hv ?_)
  · simp only [unresolved, hs]
  · simp [unresolved, hnone, hsome]

/-- A loss of nodes of an ordinary selector lowers the global rank. -/
theorem globalRank_of_shrunk (hsame : SameExcept {v.id} ctx ctx')
    (hv : v ∈ ordinarySelectors t j) {s s' : Selection} (hs : ctx.selection v.id = some s)
    (hs' : ctx'.selection v.id = some s') (hlt : s'.nodes.length < s.nodes.length) :
    GlobalLt (globalRank t ctx') (globalRank t ctx) := by
  have hsub : ∀ i, ∀ w ∈ ordinarySelectors t i, w ∈ t.selectors i :=
    fun i w hw => (mem_ordinarySelectors.mp hw).1
  have heq : weigh (ordinarySelectors t) (unresolved ctx') =
      weigh (ordinarySelectors t) (unresolved ctx) := by
    refine weigh_congr fun i w hw => ?_
    by_cases hid : w.id = v.id
    · simp [unresolved, hid, hs, hs']
    · simp only [unresolved, hsame.selection _ hid]
  rw [globalRank, globalRank, heq]
  refine .right _ (.left _ _ (weigh_lt_of_sameExcept (g := nodeCount) hsub (fun w hs _ => ?_)
    hsame hv ?_))
  · simp only [nodeCount, hs]
  · simpa [nodeCount, hs, hs'] using hlt

/-- A selection put aside for the first time lowers the global rank. -/
theorem globalRank_of_putAside (hsame : SameExcept {v.id} ctx ctx')
    (hv : v ∈ forcedUses t j) (hsel : ctx'.selection v.id = ctx.selection v.id)
    (hnone : ctx.cell v.id = none) (hsome : (ctx'.cell v.id).isSome = true) :
    GlobalLt (globalRank t ctx') (globalRank t ctx) := by
  have hall : ∀ id, ctx'.selection id = ctx.selection id := by
    intro id
    by_cases hid : id = v.id
    · rw [hid, hsel]
    · exact hsame.selection id hid
  have heq : ∀ g : Option Selection → ℕ, weigh (ordinarySelectors t)
      (fun w => g (ctx'.selection w.id)) =
      weigh (ordinarySelectors t) (fun w => g (ctx.selection w.id)) :=
    fun g => weigh_congr fun i w _ => by rw [hall]
  have h₁ := heq fun o => if o.isSome then 0 else 1
  have h₂ := heq fun o => (o.map (·.nodes.length)).getD 0
  change weigh (ordinarySelectors t) (unresolved ctx') =
    weigh (ordinarySelectors t) (unresolved ctx) at h₁
  change weigh (ordinarySelectors t) (nodeCount ctx') =
    weigh (ordinarySelectors t) (nodeCount ctx) at h₂
  rw [globalRank, globalRank, h₁, h₂]
  refine .right _ (.right _ (weigh_lt_of_sameExcept (g := emptyCell)
    (fun i w hw => (mem_forcedUses.mp hw).1) (fun w _ hc => ?_) hsame hv ?_))
  · simp only [emptyCell, hc]
  · simp [emptyCell, hnone, hsome]

end Moves

/-! ### What a notification does to the ranks -/

/-- Some forced use of a statement has a selection put aside and none of its own. -/
def Stale (t : StatementTree n) (ctx : ExecutionContext n) (j : Fin n) : Prop :=
  ∃ v ∈ forcedUses t j, ctx.selection v.id = none ∧ (ctx.cell v.id).isSome = true

/-- Nothing has changed but the selections of a statement's forced uses. -/
structure Frozen (t : StatementTree n) (j : Fin n) (ctx ctx' : ExecutionContext n) : Prop where
  selection : ∀ id, (∀ v ∈ forcedUses t j, v.id ≠ id) → ctx'.selection id = ctx.selection id
  cell : ∀ id, ctx'.cell id = ctx.cell id

/-- The forced uses of a statement have lost something, or they are as they were, and a
change is reported only where a selection waits to be taken up. -/
def LocalMove (t : StatementTree n) (j : Fin n) (changed : Bool)
    (ctx ctx' : ExecutionContext n) : Prop :=
  LocalLt (localRank t ctx' j) (localRank t ctx j) ∨
    (∀ v ∈ forcedUses t j, ctx'.selection v.id = ctx.selection v.id) ∧
      (changed = true → Stale t ctx j)

/-- What a notification of statement `j` does: it lowers the global rank, or it changes the
forced uses of `j` only, and these in any way when it comes from the parent. -/
def Moves (t : StatementTree n) (fromParent : Prop) (j : Fin n) (changed : Bool)
    (ctx ctx' : ExecutionContext n) : Prop :=
  GlobalLt (globalRank t ctx') (globalRank t ctx) ∨
    Frozen t j ctx ctx' ∧ (fromParent ∨ LocalMove t j changed ctx ctx')

section Frozen

variable {j : Fin n} {ctx ctx' ctx'' : ExecutionContext n}

theorem Frozen.refl (ctx : ExecutionContext n) : Frozen t j ctx ctx :=
  ⟨fun _ _ => rfl, fun _ => rfl⟩

theorem Frozen.trans (h : Frozen t j ctx ctx') (h' : Frozen t j ctx' ctx'') :
    Frozen t j ctx ctx'' :=
  ⟨fun id hid => (h'.selection id hid).trans (h.selection id hid),
    fun id => (h'.cell id).trans (h.cell id)⟩

/-- A selector that is no forced use of the statement keeps its selection. -/
theorem Frozen.selection_eq (h : Frozen t j ctx ctx') {k : Fin n} {w : Verb}
    (hw : w ∈ t.selectors k) (hne : w.kind.isForcedUse = false ∨ k ≠ j) :
    ctx'.selection w.id = ctx.selection w.id := by
  refine h.selection w.id fun v hv hid => ?_
  obtain ⟨rfl, rfl⟩ := eq_of_mem_forcedUses hv hw hid
  rcases hne with hf | hkj
  · rw [(mem_forcedUses.mp hv).2] at hf
    cases hf
  · exact hkj rfl

theorem Frozen.globalRank (h : Frozen t j ctx ctx') : globalRank t ctx' = globalRank t ctx := by
  have hord : ∀ i, ∀ w ∈ ordinarySelectors t i, ctx'.selection w.id = ctx.selection w.id := by
    intro i w hw
    obtain ⟨hw, hf⟩ := mem_ordinarySelectors.mp hw
    exact h.selection_eq hw (Or.inl hf)
  have h₁ : weigh (ordinarySelectors t) (unresolved ctx') = weigh _ (unresolved ctx) :=
    weigh_congr fun i w hw => by simp only [unresolved, hord i w hw]
  have h₂ : weigh (ordinarySelectors t) (nodeCount ctx') = weigh _ (nodeCount ctx) :=
    weigh_congr fun i w hw => by simp only [nodeCount, hord i w hw]
  have h₃ : weigh (forcedUses t) (emptyCell ctx') = weigh _ (emptyCell ctx) :=
    weigh_congr fun i w _ => by simp only [emptyCell, h.cell]
  rw [Askl.globalRank, Askl.globalRank, h₁, h₂, h₃]

/-- The local rank of a statement reads its forced uses only. -/
theorem localRank_congr {k : Fin n}
    (h : ∀ v ∈ forcedUses t k, ctx'.selection v.id = ctx.selection v.id) :
    localRank t ctx' k = localRank t ctx k := by
  have h₁ : (forcedUses t k).map (unresolved ctx') = (forcedUses t k).map (unresolved ctx) :=
    List.map_congr_left fun v hv => by simp only [unresolved, h v hv]
  have h₂ : (forcedUses t k).map (nodeCount ctx') = (forcedUses t k).map (nodeCount ctx) :=
    List.map_congr_left fun v hv => by simp only [nodeCount, h v hv]
  rw [localRank, localRank, h₁, h₂]

theorem Frozen.localRank (h : Frozen t j ctx ctx') {k : Fin n} (hk : k ≠ j) :
    localRank t ctx' k = localRank t ctx k :=
  localRank_congr fun _ hv => h.selection_eq (mem_forcedUses.mp hv).1 (Or.inr hk)

theorem LocalMove.trans {b b' : Bool} (hfrozen : Frozen t j ctx ctx')
    (h : LocalMove t j b ctx ctx') (h' : LocalMove t j b' ctx' ctx'') :
    LocalMove t j (b || b') ctx ctx'' := by
  rcases h with hlt | ⟨heq, hb⟩ <;> rcases h' with hlt' | ⟨heq', hb'⟩
  · exact Or.inl (trans_of LocalLt hlt' hlt)
  · exact Or.inl (localRank_congr heq' ▸ hlt)
  · exact Or.inl (localRank_congr heq ▸ hlt')
  · refine Or.inr ⟨fun v hv => (heq' v hv).trans (heq v hv), fun hbb => ?_⟩
    rcases Bool.or_eq_true_iff.mp hbb with hb₁ | hb₂
    · exact hb hb₁
    · obtain ⟨v, hv, hnone, hcell⟩ := hb' hb₂
      exact ⟨v, hv, heq v hv ▸ hnone, hfrozen.cell v.id ▸ hcell⟩

theorem Moves.refl {fromParent : Prop} (ctx : ExecutionContext n) :
    Moves t fromParent j false ctx ctx :=
  Or.inr ⟨.refl ctx, Or.inr (Or.inr ⟨fun _ _ => rfl, fun h => by cases h⟩)⟩

theorem Moves.trans {fromParent : Prop} {b b' : Bool} (h : Moves t fromParent j b ctx ctx')
    (h' : Moves t fromParent j b' ctx' ctx'') : Moves t fromParent j (b || b') ctx ctx'' := by
  rcases h with hlt | ⟨hfr, hloc⟩ <;> rcases h' with hlt' | ⟨hfr', hloc'⟩
  · exact Or.inl (trans_of GlobalLt hlt' hlt)
  · exact Or.inl (hfr'.globalRank ▸ hlt)
  · exact Or.inl (hfr.globalRank ▸ hlt')
  · refine Or.inr ⟨hfr.trans hfr', ?_⟩
    rcases hloc with hp | hloc
    · exact Or.inl hp
    · exact hloc'.imp_right fun hloc' => hloc.trans hfr hloc'

end Frozen

section Turns

variable {j : Fin n} {v : Verb} {ctx ctx' : ExecutionContext n} {fromParent : Prop}

/-- A turn that changes no selection and no cell, and reports none. -/
private theorem moves_of_eq (hsel : ∀ id, ctx'.selection id = ctx.selection id)
    (hcell : ∀ id, ctx'.cell id = ctx.cell id) : Moves t fromParent j false ctx ctx' :=
  Or.inr ⟨⟨fun id _ => hsel id, hcell⟩,
    Or.inr (Or.inr ⟨fun v _ => hsel v.id, fun h => by cases h⟩)⟩

/-- A forced use that changes its selection alone. -/
private theorem frozen_of_sameExcept (hsame : SameExcept {v.id} ctx ctx')
    (hv : v ∈ forcedUses t j) (hcell : ctx'.cell v.id = ctx.cell v.id) :
    Frozen t j ctx ctx' where
  selection id hid := hsame.selection id fun h => hid v hv h.symm
  cell id := by
    by_cases hid : id = v.id
    · rw [hid, hcell]
    · exact hsame.cell id hid

/-- A forced use's first selection lowers the local rank. -/
private theorem localRank_of_resolved (hsame : SameExcept {v.id} ctx ctx')
    (hv : v ∈ forcedUses t j) (hnone : ctx.selection v.id = none)
    (hsome : (ctx'.selection v.id).isSome = true) :
    LocalLt (localRank t ctx' j) (localRank t ctx j) := by
  refine .left _ _ (List.sum_lt_sum _ _ (fun w _ => ?_) ⟨v, hv, ?_⟩)
  · by_cases hid : w.id = v.id
    · simp [unresolved, hid, hnone, hsome]
    · simp only [unresolved, hsame.selection _ hid, le_refl]
  · simp [unresolved, hnone, hsome]

/-- A forced use's loss of nodes lowers the local rank. -/
private theorem localRank_of_shrunk (hsame : SameExcept {v.id} ctx ctx')
    (hv : v ∈ forcedUses t j) {s s' : Selection} (hs : ctx.selection v.id = some s)
    (hs' : ctx'.selection v.id = some s') (hlt : s'.nodes.length < s.nodes.length) :
    LocalLt (localRank t ctx' j) (localRank t ctx j) := by
  have heq : (forcedUses t j).map (unresolved ctx') = (forcedUses t j).map (unresolved ctx) := by
    refine List.map_congr_left fun w _ => ?_
    by_cases hid : w.id = v.id
    · simp [unresolved, hid, hs, hs']
    · simp only [unresolved, hsame.selection _ hid]
  rw [localRank, localRank, heq]
  refine .right _ (List.sum_lt_sum _ _ (fun w _ => ?_) ⟨v, hv, ?_⟩)
  · by_cases hid : w.id = v.id
    · simpa [nodeCount, hid, hs, hs'] using hlt.le
    · simp only [nodeCount, hsame.selection _ hid, le_refl]
  · simpa [nodeCount, hs, hs'] using hlt

/-- A constraint moves its selector down, or nowhere. -/
private theorem moves_of_constrained (hv : v ∈ t.selectors j) {dependency s : Selection}
    {role : DependencyRole} {rel : RelationshipType} {ws : List Diagnostic}
    (hs : ctx.selection v.id = some s) :
    Moves t fromParent j (constrainChanged dependency role rel s) ctx
      ((ctx.setSelection v.id (some (constrainSelection dependency role rel s))).warn j ws) := by
  have hsame : SameExcept {v.id} ctx
      ((ctx.setSelection v.id (some (constrainSelection dependency role rel s))).warn j ws) :=
    (SameExcept.setSelection ctx v.id _).trans (.warn _ j ws)
  have hself : ((ctx.setSelection v.id (some (constrainSelection dependency role rel s))).warn j
      ws).selection v.id = some (constrainSelection dependency role rel s) :=
    ExecutionContext.selection_setSelection_self _ _ _
  cases hch : constrainChanged dependency role rel s with
  | false =>
    rw [constrainSelection_eq_self hch] at hself ⊢
    refine moves_of_eq (fun id => ?_) fun _ => rfl
    by_cases hid : id = v.id
    · rw [hid, hs]
      exact ExecutionContext.selection_setSelection_self _ _ _
    · simp [hid]
  | true =>
    have hlt := length_constrainSelection_lt hch
    cases hf : v.kind.isForcedUse with
    | false =>
      exact Or.inl (globalRank_of_shrunk hsame (mem_ordinarySelectors.mpr ⟨hv, hf⟩) hs hself hlt)
    | true =>
      have hv' := mem_forcedUses.mpr ⟨hv, hf⟩
      exact Or.inr ⟨frozen_of_sameExcept hsame hv' rfl,
        Or.inr (Or.inl (localRank_of_shrunk hsame hv' hs hself hlt))⟩

/-- A turn under the union of the children. -/
theorem moves_mergeTurn (hv : v ∈ t.selectors j) {merged : Selection} {rel : RelationshipType}
    {parentScope : ScopeContext} {changed : Bool}
    (h : MergeTurn db t j merged rel parentScope v ctx changed ctx') :
    Moves t fromParent j changed ctx ctx' := by
  have hsame := h.sameExcept
  cases h with
  | constrained hs => exact moves_of_constrained hv hs
  | @derived sel hnone hderive =>
    have hsome : ((ctx.setSelection v.id (some sel)).selection v.id).isSome = true := by simp
    cases hf : v.kind.isForcedUse with
    | false =>
      exact Or.inl (globalRank_of_resolved hsame (mem_ordinarySelectors.mpr ⟨hv, hf⟩) hnone hsome)
    | true =>
      have hv' := mem_forcedUses.mpr ⟨hv, hf⟩
      exact Or.inr ⟨frozen_of_sameExcept hsame hv' rfl,
        Or.inr (Or.inl (localRank_of_resolved hsame hv' hnone hsome))⟩

/-- A turn under a parent's or a provider's notification. -/
theorem moves_acceptTurn {nt : Notification n} (hv : v ∈ t.selectors nt.dependent)
    {changed : Bool} (h : AcceptTurn db t nt v ctx changed ctx')
    (hget : (getSelection t ctx nt.notifier).isSome = true) :
    Moves t (nt.isUser = false) nt.dependent changed ctx ctx' := by
  have hsame := h.sameExcept
  cases h with
  | unaddressed => exact .refl ctx
  | skipped => exact .refl ctx
  | constrained _ hs => exact moves_of_constrained hv hs
  | derived huser hsel hderive =>
    have hsome := deriveFromParent_isSome hderive hget
    cases hf : v.kind.isForcedUse with
    | false =>
      have hnone := hsel.resolve_right (by simp [hf])
      exact Or.inl (globalRank_of_resolved hsame (mem_ordinarySelectors.mpr ⟨hv, hf⟩) hnone
        (by simpa using hsome))
    | true =>
      exact Or.inr ⟨frozen_of_sameExcept hsame (mem_forcedUses.mpr ⟨hv, hf⟩) rfl, Or.inl huser⟩
  | provided haddr hnone huser =>
    obtain ⟨provider, hprovider⟩ := Option.isSome_iff_exists.mp hget
    cases hf : v.kind.isForcedUse with
    | false =>
      refine Or.inl (globalRank_of_resolved hsame (mem_ordinarySelectors.mpr ⟨hv, hf⟩) hnone ?_)
      simp [deriveFromProvider, hprovider, hf]
    | true =>
      have hv' := mem_forcedUses.mpr ⟨hv, hf⟩
      have hsel : ((deriveFromProvider t ctx nt v).2.setSelection v.id
          (deriveFromProvider t ctx nt v).1).selection v.id = ctx.selection v.id := by
        simp [deriveFromProvider, hprovider, hf, hnone]
      have hcell : ((deriveFromProvider t ctx nt v).2.setSelection v.id
          (deriveFromProvider t ctx nt v).1).cell v.id =
            some ((ctx.cell v.id).getD provider) := by
        simp [deriveFromProvider, hprovider, hf, ExecutionContext.cell_setCell]
      cases hc : ctx.cell v.id with
      | none =>
        exact Or.inl (globalRank_of_putAside hsame hv' hsel hc (by rw [hcell]; rfl))
      | some s =>
        -- the provider has notified before, and the statement waits for its pop
        rw [hc, Option.getD_some] at hcell
        refine Or.inr ⟨frozen_of_sameExcept hsame hv' (hcell.trans hc.symm),
          Or.inr (Or.inr ⟨fun w hw => ?_, fun _ => ⟨v, hv', hnone, by simp [hc]⟩⟩)⟩
        by_cases hid : w.id = v.id
        · rw [hid, hsel]
        · exact hsame.selection _ hid

/-- **One notification**: it does nothing, or moves the statement it notifies. -/
theorem moves_notify {i : Fin n} {d : StatementDependent n} {changed : Bool}
    (h : notify db t ctx i d = .ok (changed, ctx')) :
    Moves t (d.role = .child) d.statement changed ctx ctx' := by
  rcases notify_cases db t h with ⟨rfl, rfl⟩ | ⟨-, merged, -, -, hrun⟩ |
    ⟨isUser, dependency, hrole, hget, hrun⟩
  · exact .refl _
  · exact runSelectors_induction (R := Moves t (d.role = .child) d.statement)
      (fun c => .refl c) (fun h h' => h.trans h')
      (fun v hv _ _ _ hturn => moves_mergeTurn hv (mergeSelector_turn db t hturn)) hrun
  · have hchild : (isUser = false) ↔ d.role = .child := by
      cases isUser <;> simp [hrole]
    rw [← hchild]
    refine (runSelectors_induction (R := fun b c c' => (getSelection t c i).isSome = true →
      (getSelection t c' i).isSome = true ∧ Moves t (isUser = false) d.statement b c c')
      (fun c h => ⟨h, .refl c⟩)
      (fun h h' hc => ⟨(h' (h hc).1).1, (h hc).2.trans (h' (h hc).1).2⟩)
      (fun v hv _ _ _ hturn hc => ?_) hrun (by simp [hget])).2
    have hturn := acceptSelector_turn db t hturn
    exact ⟨hturn.getSelection_isSome hc, moves_acceptTurn hv hturn hc⟩

end Turns

/-! ### Selections put aside -/

/-- A statement with a forced use that can take up a selection is waiting. -/
def Scheduled (t : StatementTree n) (st : WorkState n) : Prop :=
  ∀ j, Stale t st.ctx j → j ∈ st.worklist

/-- A notification that puts a selection aside reports a change. -/
theorem stale_of_notify {i : Fin n} {d : StatementDependent n} {changed : Bool}
    {ctx ctx' : ExecutionContext n} (h : notify db t ctx i d = .ok (changed, ctx')) {k : Fin n}
    (hk : Stale t ctx' k) : Stale t ctx k ∨ changed = true ∧ k = d.statement := by
  by_cases hkd : k = d.statement
  · subst hkd
    -- a turn that leaves a selector with nothing but its cell has changed it, or nothing
    have hturn : ∀ {b : Bool} {c c' : ExecutionContext n} {v : Verb},
        SameExcept {v.id} c c' → (b = true ∨ (c'.selection v.id).isSome = true ∨ c' = c) →
        Stale t c' d.statement → Stale t c d.statement ∨ b = true := by
      rintro b c c' v hsame hcases ⟨w, hw, hnone, hcell⟩
      by_cases hid : w.id = v.id
      · rcases hcases with hb | hsome | rfl
        · exact Or.inr hb
        · rw [← hid, hnone] at hsome
          cases hsome
        · exact Or.inl ⟨w, hw, hnone, hcell⟩
      · rw [hsame.selection _ hid] at hnone
        rw [hsame.cell _ hid] at hcell
        exact Or.inl ⟨w, hw, hnone, hcell⟩
    have hR := notify_induction (R := fun b c c' =>
        Stale t c' d.statement → Stale t c d.statement ∨ b = true) db t
      (fun _ hs => Or.inl hs) (fun h h' hs => ?_) (fun _ _ v _ _ _ _ hm => ?_)
      (fun _ _ _ _ v _ _ _ _ ha => ?_) h hk
    · exact hR.imp_right fun hb => ⟨hb, rfl⟩
    · rcases h' hs with hs' | hb'
      · exact (h hs').imp_right fun hb => by simp [hb]
      · exact Or.inr (by simp [hb'])
    · refine hturn hm.sameExcept ?_
      cases hm with
      | constrained => exact Or.inr (Or.inl (by simp))
      | derived => exact Or.inl rfl
    · refine hturn ha.sameExcept ?_
      cases ha with
      | unaddressed => exact Or.inr (Or.inr rfl)
      | skipped => exact Or.inr (Or.inr rfl)
      | constrained => exact Or.inr (Or.inl (by simp))
      | provided => exact Or.inl rfl
      | derived => exact Or.inl rfl
  · obtain ⟨v, hv, hnone, hcell⟩ := hk
    have hsame := notify_sameExcept h
    have hnot : v.id ∉ {id | ∃ w ∈ t.selectors d.statement, w.id = id} := by
      rintro ⟨w, hw, hid⟩
      exact hkd (eq_of_mem_forcedUses hv hw hid.symm).2
    exact Or.inl ⟨v, hv, hsame.selection _ hnot ▸ hnone, hsame.cell _ hnot ▸ hcell⟩

/-- A pop touches the forced uses of its statement only. -/
theorem frozen_updateState (ctx : ExecutionContext n) (i : Fin n) :
    Frozen t i ctx (updateState t ctx i) where
  selection id hid := by
    rw [updateState_selection, if_neg]
    rintro ⟨⟨v, hv, hvid, hforced⟩, -⟩
    exact hid v (mem_forcedUses.mpr ⟨hv, hforced⟩) hvid
  cell id := by rw [updateState_cell]

theorem Scheduled.step {st st' : WorkState n} (hcons : st.Consistent t) (h : Scheduled t st)
    (hstep : Step db t st st') : Scheduled t st' := by
  cases hstep with
  | @pop st k i hqueue hget =>
    rintro j ⟨v, hv, hnone, hcell⟩
    have hfr := frozen_updateState (t := t) st.ctx i
    change (updateState t st.ctx i).selection v.id = none at hnone
    change ((updateState t st.ctx i).cell v.id).isSome = true at hcell
    rw [hfr.cell] at hcell
    by_cases hji : j = i
    · -- the popped statement has taken its selection up
      subst hji
      obtain ⟨hv, hforced⟩ := mem_forcedUses.mp hv
      rw [updateState_selection] at hnone
      split at hnone
      · simp [hnone] at hcell
      · next hno => exact absurd ⟨⟨v, hv, rfl, hforced⟩, hnone⟩ hno
    · rw [hfr.selection_eq (mem_forcedUses.mp hv).1 (Or.inr hji)] at hnone
      exact (mem_swapRemove hcons.nodup hget).mpr ⟨h j ⟨v, hv, hnone, hcell⟩, hji⟩
  | notify hnotify =>
    intro j hj
    rcases stale_of_notify hnotify hj with hs | ⟨hch, rfl⟩
    · exact mem_scheduleIf.mpr (Or.inl (h j hs))
    · exact mem_scheduleIf.mpr (Or.inr ⟨hch, rfl⟩)

/-! ### Every step lowers the rank -/

/-- Where nothing changes at a notifier and above it, one notification fewer is left. -/
private theorem rankLt_of_notifier {ctx ctx' : ExecutionContext n} {worklist worklist' : List (Fin n)}
    {i : Fin n} {d : StatementDependent n} {rest : List (Fin n × StatementDependent n)}
    (hglobal : globalRank t ctx' = globalRank t ctx)
    (hlocal : ∀ k ≤ i, localRank t ctx' k = localRank t ctx k)
    (hmem : ∀ k ≤ i, k ∈ worklist' ↔ k ∈ worklist) :
    RankLt (rank t ⟨ctx', worklist', rest⟩) (rank t ⟨ctx, worklist, (i, d) :: rest⟩) := by
  rw [rank, rank, hglobal]
  refine .right _ ⟨i, fun k hk => ?_, ?_⟩
  · have hne : i ≠ k := (ne_of_lt hk).symm
    simp [hlocal k hk.le, duties, hmem k hk.le, hne]
  · dsimp only
    rw [hlocal i le_rfl]
    refine .right _ ?_
    simp [duties, hmem i le_rfl]

/-- A pop sends notifications of the popped statement only, and each once. -/
private theorem length_notifications_le (ctx : ExecutionContext n) (i m : Fin n) :
    ((notifications t ctx i).filter fun p => p.1 = m).length ≤
      if m = i then (t.dependents i).length else 0 := by
  by_cases hm : m = i
  · rw [if_pos hm]
    refine (List.length_filter_le _ _).trans ?_
    unfold notifications
    split <;> simp
  · rw [if_neg hm, Nat.le_zero, List.length_eq_zero_iff, List.filter_eq_nil_iff]
    intro p hp hpm
    exact hm ((of_decide_eq_true hpm).symm.trans (mem_notifications t hp).1)

/-- A pop that takes up a selection that was put aside leaves fewer selectors without one. -/
private theorem localRank_updateState_lt {ctx : ExecutionContext n} {i : Fin n}
    (h : Stale t ctx i) :
    LocalLt (localRank t (updateState t ctx i) i) (localRank t ctx i) := by
  obtain ⟨v, hv, hnone, hcell⟩ := h
  refine .left _ _ (List.sum_lt_sum _ _ (fun w hw => ?_) ⟨v, hv, ?_⟩)
  · change unresolved (updateState t ctx i) w ≤ _
    rw [unresolved, unresolved, updateState_selection]
    split
    · next h => simp [h.2]; split <;> simp
    · exact le_rfl
  · change unresolved (updateState t ctx i) v < _
    obtain ⟨hv, hforced⟩ := mem_forcedUses.mp hv
    have hsel : (updateState t ctx i).selection v.id = ctx.cell v.id := by
      rw [updateState_selection, if_pos ⟨⟨v, hv, rfl, hforced⟩, hnone⟩]
    simp [unresolved, hsel, hcell, hnone]

/-- A pop that takes none up leaves the statement as it was. -/
private theorem localRank_updateState_eq {ctx : ExecutionContext n} {i : Fin n}
    (h : ¬Stale t ctx i) : localRank t (updateState t ctx i) i = localRank t ctx i := by
  refine localRank_congr fun v hv => ?_
  rw [updateState_selection]
  split
  · next hput =>
    cases hc : ctx.cell v.id with
    | none => exact hput.2.symm
    | some s => exact absurd ⟨v, hv, hput.2, by simp [hc]⟩ h
  · rfl

/-- A pop lowers the rank. -/
private theorem rank_pop {st : WorkState n} (hcons : st.Consistent t) {k : ℕ} {i : Fin n}
    (hqueue : st.queue = []) (hget : st.worklist[k]? = some i) :
    RankLt (rank t (st.pop t k i)) (rank t st) := by
  have hfr := frozen_updateState (t := t) st.ctx i
  have hi : i ∈ st.worklist := List.mem_of_getElem? hget
  have hrem : ∀ m, m ∈ swapRemove st.worklist k ↔ m ∈ st.worklist ∧ m ≠ i :=
    fun m => mem_swapRemove hcons.nodup hget
  have hlen := length_notifications_le (t := t) (updateState t st.ctx i) i
  rw [rank, rank]
  change RankLt (globalRank t (updateState t st.ctx i), _) _
  rw [hfr.globalRank]
  refine .right _ ⟨i, fun m hm => ?_, ?_⟩
  · have hne : m ≠ i := ne_of_lt hm
    have h0 := hlen m
    rw [if_neg hne, Nat.le_zero] at h0
    refine Prod.ext (hfr.localRank hne) ?_
    simp only [duties, WorkState.pop, hrem, hqueue, h0]
    simp [hne]
  · by_cases hstale : Stale t st.ctx i
    · -- a selection put aside is taken up
      exact .left _ _ (localRank_updateState_lt hstale)
    · -- the statement is waiting no longer, and sends each notification once
      change Prod.Lex LocalLt (· < ·) (localRank t (updateState t st.ctx i) i, _) _
      rw [localRank_updateState_eq hstale]
      refine .right _ ?_
      have hle := hlen i
      rw [if_pos rfl] at hle
      simp only [duties, WorkState.pop, hrem, hqueue, hi, ne_eq, not_true_eq_false, and_false,
        if_false, if_true, List.filter_nil, List.length_nil]
      omega

/-- A notification lowers the rank. -/
private theorem rank_notify {deps : Fin n → List (StatementDependent n)}
    (hgraph : t.buildDependencyGraph = .ok deps) {ctx ctx' : ExecutionContext n}
    {worklist : List (Fin n)} {i : Fin n} {d : StatementDependent n}
    {rest : List (Fin n × StatementDependent n)} {changed : Bool} (hd : d ∈ t.dependents i)
    (hsched : Scheduled t ⟨ctx, worklist, (i, d) :: rest⟩)
    (hnotify : notify db t ctx i d = .ok (changed, ctx')) :
    RankLt (rank t ⟨ctx', scheduleIf changed worklist d.statement, rest⟩)
      (rank t ⟨ctx, worklist, (i, d) :: rest⟩) := by
  by_cases hpre : d.role.isPreSeed = true
  · have hsame : changed = false ∧ ctx' = ctx := by
      cases hrole : d.role <;>
        simp_all [DependencyRole.isPreSeed, notify]
    obtain ⟨rfl, rfl⟩ := hsame
    exact rankLt_of_notifier rfl (fun _ _ => rfl) fun _ _ => Iff.rfl
  · have hne := t.statement_ne_of_mem_dependents hgraph hd (by simpa using hpre)
    rcases moves_notify hnotify with hlt | ⟨hfr, hmove⟩
    · exact .left _ _ hlt
    · -- what lies above the notified statement is as it was
      have habove : i < d.statement → RankLt (rank t ⟨ctx', scheduleIf changed worklist
          d.statement, rest⟩) (rank t ⟨ctx, worklist, (i, d) :: rest⟩) := by
        intro hlt
        have hk : ∀ k ≤ i, k ≠ d.statement := fun k hk => (lt_of_le_of_lt hk hlt).ne
        exact rankLt_of_notifier hfr.globalRank (fun k hki => hfr.localRank (hk k hki))
          fun k hki => by simp [mem_scheduleIf, hk k hki]
      rcases hmove with hchild | hlt | ⟨heq, hstale⟩
      · exact habove (t.parent_lt ((t.mem_dependents_child hchild).mp hd).1)
      · rcases lt_or_gt_of_ne hne with hji | hij
        · rw [rank, rank, hfr.globalRank]
          refine .right _ ⟨d.statement, fun k hk => ?_, .left _ _ hlt⟩
          have hki : i ≠ k := ((hk.trans hji).ne).symm
          simp [hfr.localRank hk.ne, duties, mem_scheduleIf, hk.ne, hki]
        · exact habove hij
      · refine rankLt_of_notifier hfr.globalRank (fun k _ => ?_) fun k _ => ?_
        · by_cases hk : k = d.statement
          · exact hk ▸ localRank_congr heq
          · exact hfr.localRank hk
        · rw [mem_scheduleIf]
          constructor
          · rintro (hk | ⟨hch, hkd⟩)
            · exact hk
            · exact hkd ▸ hsched d.statement (hstale hch)
          · exact Or.inl

/-- **Every step lowers the rank.** -/
theorem rank_step {deps : Fin n → List (StatementDependent n)}
    (hgraph : t.buildDependencyGraph = .ok deps) {st st' : WorkState n}
    (hcons : st.Consistent t) (hsched : Scheduled t st) (hstep : Step db t st st') :
    RankLt (rank t st') (rank t st) := by
  cases hstep with
  | pop hqueue hget => exact rank_pop hcons hqueue hget
  | @notify ctx ctx' worklist i d rest changed hnotify =>
    have hd := hcons.mem_dependents (i, d) List.mem_cons_self
    exact rank_notify hgraph hd hsched hnotify

/-! ### Runs -/

/-- What the states of a run keep, and the rank lowers. -/
structure Ranked (t : StatementTree n) (st : WorkState n) : Prop where
  consistent : st.Consistent t
  scheduled : Scheduled t st

/-- After the roots nothing has been put aside. -/
theorem ranked_seed {layers : LayerStore n} {roots : List RootLayer} {ctx : ExecutionContext n}
    (hroots : computeRoots db t layers roots = .ok ctx) : Ranked t (seed t ctx) where
  consistent := consistent_seed t ctx
  scheduled := by
    rintro j ⟨v, hv, -, hcell⟩
    obtain ⟨hv, hforced⟩ := mem_forcedUses.mp hv
    have huse : v.kind.asUse.isSome = true := by
      cases hk : v.kind.asUse <;> simp_all [VerbKind.isForcedUse]
    have hnone := (computed_of_computeRoots hroots j).cell_eq_none hv huse
    change (ctx.cell v.id).isSome = true at hcell
    simp [hnone] at hcell

/-- Every run from a ranked state is finite. -/
theorem terminates_of_ranked {deps : Fin n → List (StatementDependent n)}
    (hgraph : t.buildDependencyGraph = .ok deps) {st : WorkState n} (h : Ranked t st) :
    Runs.Terminates (Step db t) st :=
  Runs.terminates_of_rank wellFounded_rankLt (rank t)
    (fun h hstep => ⟨⟨h.consistent.step hstep, h.scheduled.step h.consistent hstep⟩,
      rank_step hgraph h.consistent h.scheduled hstep⟩) h

/-- Where every run is finite the source's own run returns. -/
theorem exists_runWorklist_eq_some {ctx : ExecutionContext n}
    (hterm : Runs.Terminates (Step db t) (seed t ctx)) :
    ∃ fuel r, runWorklist db t fuel ctx = some r := by
  refine Runs.exists_loop_eq_some (Subrelation.accessible ?_ hterm)
  intro st' st hadv
  exact step_of_advance db t hadv

/-- **The worklist terminates.**  Whatever statement each pop returns, no run goes on for
ever: it runs until the worklist is empty or a notification fails, and the source's own
run returns. -/
theorem worklist_terminates {deps : Fin n → List (StatementDependent n)}
    (hgraph : t.buildDependencyGraph = .ok deps) {layers : LayerStore n}
    {roots : List RootLayer} {ctx : ExecutionContext n}
    (hroots : computeRoots db t layers roots = .ok ctx) :
    (¬∃ run : ℕ → WorkState n, run 0 = seed t ctx ∧ ∀ k, Step db t (run k) (run (k + 1))) ∧
      (∀ st, ReflTransGen (Step db t) (seed t ctx) st →
        ∃ st', ReflTransGen (Step db t) st st' ∧ (st'.Finished ∨ ∃ e, st'.Fails db t e)) ∧
      ∃ fuel r, runWorklist db t fuel ctx = some r := by
  have hterm : Runs.Terminates (Step db t) (seed t ctx) :=
    terminates_of_ranked hgraph (ranked_seed hroots)
  refine ⟨Runs.not_exists_infinite_run hterm, fun st hrun => ?_, ?_⟩
  · have hst : Ranked t st := Runs.invariant_of_run (fun h hstep =>
      ⟨h.consistent.step hstep, h.scheduled.step h.consistent hstep⟩) hrun (ranked_seed hroots)
    have hend : Runs.Terminates (Step db t) st := terminates_of_ranked hgraph hst
    obtain ⟨st', hrun', hend⟩ := Runs.exists_run_to_end hend
    refine ⟨st', hrun', ?_⟩
    by_contra hne
    obtain ⟨hfin, hfail⟩ := not_or.mp hne
    rcases exists_step_or_fails db t hfin with ⟨st'', hstep⟩ | hf
    · exact hend st'' hstep
    · exact hfail hf
  · exact exists_runWorklist_eq_some hterm

/-- `"a" #x ; "b" { use("x", forced="true") }`. -/
def forcedUseTree : StatementTree 3 :=
  .ofChecked
    (fun i => if i = 0 then
        .plain [.plain 0 (.name (nameFilter ['a']) (some ['a'])), .plain 1 (.label ['x'])]
      else if i = 1 then .plain [.plain 2 (.name (nameFilter ['b']) (some ['b']))]
      else .plain [.plain 3 (.use ['x'] true)])
    (fun i => if i = 2 then some 1 else none) ⟨true, true⟩ (by decide)

/-- A forced use below a name: its provider and its parent both keep notifying it. -/
theorem forcedUse_terminates : ∃ ctx,
    computeRoots callDatabase forcedUseTree noLayers [⟨1, 1⟩] = .ok ctx ∧
      ∃ fuel r, runWorklist callDatabase forcedUseTree fuel ctx = some r := by
  obtain ⟨ctx, hctx, -⟩ := exists_ok_of_map
    (x := some (computeRoots callDatabase forcedUseTree noLayers [⟨1, 1⟩]))
    (f := fun _ => ()) (b := ()) (by decide +kernel)
  have hgraph := forcedUseTree.buildDependencyGraph_eq_ok (by decide +kernel)
  have hroots := Option.some.inj hctx
  exact ⟨ctx, hroots, (worklist_terminates hgraph hroots).2.2⟩

end Askl
