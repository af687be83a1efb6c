import Askl.Library.Fallible
import Askl.Query.Context

/-!
# Notifications

One edge of the dependency graph at work: the dependent's selectors are constrained by
the notifier's selection, or derived from it when they have none.  A notification from
a child constrains its parent by the union of all its children.

## Main definitions

* `buildParentScope`, `buildChildrenScope` — the scopes of a statement's edge queries.
* `Notification` — what a child or user notification carries to a selector.
* `tryConstrain` — constrain one selector, skip it, or ask for a derivation.
* `deriveFromParent`, `deriveFromProvider`, `deriveFromChildren` — the derivations.
* `acceptSelector`, `mergeSelector` — one selector's turn.
* `acceptNotification`, `notifyFromSelection`, `notify` — the notification itself.

## Main results

* `acceptSelector_turn`, `mergeSelector_turn` — everything a turn can do.
* `runSelectors_induction` — **what each selector's turn keeps, all of them keep.**
* `notify_result` — a notification does nothing, or gives every selector of the dependent
  its turn.
-/

namespace Askl

/-- What a query can fail with: an index query, a use verb reached by its parent first,
or a layer that could not be materialised. -/
inductive ExecError where
  | index (e : IndexError)
  | circularDependency (label : Text)
  | notForced
  | layer
  deriving DecidableEq, Repr

/-- Run an index query of the executor. -/
def liftIndex {α : Type*} : Except IndexError α → Except ExecError α
  | .ok a => .ok a
  | .error e => .error (.index e)

@[simp] theorem liftIndex_eq_ok {α : Type*} {x : Except IndexError α} {a : α} :
    liftIndex x = .ok a ↔ x = .ok a := by
  cases x <;> simp [liftIndex]

variable {n : ℕ} (db : Database) (t : StatementTree n)

/-! ### Scopes -/

/-- `build_parent_scope`. -/
def buildParentScope (ctx : ExecutionContext n) (i : Fin n) : ScopeContext :=
  match t.parent i with
  | none => .unscoped
  | some p =>
    if isComputed t ctx p then match getSelection t ctx p with
      | some sel => .scope sel.getInstanceIds none
      | none => .unscoped
    else match (t.command p).selectorCompositeFilter with
      | some f => .scope [] (some f)
      | none => .unscoped

/-- The instance ids a computed child has selected. -/
def selectedChildIds (ctx : ExecutionContext n) (c : Fin n) : List ℤ :=
  if isComputed t ctx c then ((getSelection t ctx c).map (·.getInstanceIds)).getD [] else []

/-- `build_children_scope`. -/
def buildChildrenScope (ctx : ExecutionContext n) (i : Fin n) : ScopeContext :=
  let children := t.children i
  let ids := children.flatMap (selectedChildIds t ctx)
  let filters := (children.filter fun c => !(isComputed t ctx c)).filterMap
    fun c => (t.command c).selectorCompositeFilter
  if children.isEmpty then .skip
  else if ids.isEmpty && filters.isEmpty then
    if children.any fun c => !(isComputed t ctx c) || (getSelection t ctx c).isNone then
      .unscoped
    else .skip
  else .scope ids (if filters.isEmpty then none else some (.mkOr filters))

/-! ### Deriving a selection -/

/-- `find_symbol_by_instance_id`: load the given instances under a command's filters. -/
def findSymbolByInstanceId (command : Command) (instances : List ℤ)
    (parentScope childrenScope : ScopeContext) (eph : EphContext) :
    Except IndexError Selection :=
  findSymbol db (.mkAnd (command.filterParts ++ [.leaf (.symbolInstanceId instances)]))
    parentScope childrenScope eph

/-- The filter of a downward derivation: without `unnest`, only what is directly below
one of the parents. -/
def childFilter (unnest : Bool) (parentIds : List ℤ) : CompositeFilter :=
  if unnest then .mkAnd []
  else .mkAnd [.leaf .directOnly, .leaf (.outerParent parentIds)]

/-- The filter of an upward derivation: without `unnest`, only the innermost
containers. -/
def parentFilter (unnest : Bool) : CompositeFilter :=
  if unnest then .mkAnd [] else .mkAnd [.leaf .innermostOnly]

/-- The fabricated reference from a parent node to a forced match; its layer follows the
parent. -/
def forcedReference (parent child : SelectionNode) : ParentReference where
  toSymbol := child.symbol
  toInstance := child.symbolInstance
  fromInstance := parent.symbolInstance
  symbolRef :=
    { id := 0
      toSymbol := child.symbol.id
      fromObject := parent.object.id
      fromOffsetRange := parent.symbolInstance.offsetRange
      layer := parent.symbolInstance.layer }

/-- The cached matches with a reference from every parent node to every one of them. -/
def forcedSelection (parent matched : Selection) : Selection :=
  { matched with
    parents := parent.nodes.flatMap fun p => matched.nodes.map fun c => forcedReference p c }

/-- What a child or user notification carries. -/
structure Notification (n : ℕ) where
  notifier : Fin n
  dependent : Fin n
  /-- Whether the notifier is the provider of a label, not the parent. -/
  isUser : Bool
  rel : RelationshipType
  dependency : Selection
  parentScope : ScopeContext
  childrenScope : ScopeContext

/-- The role of the notification. -/
def Notification.role (nt : Notification n) : DependencyRole :=
  if nt.isUser then .user else .child

/-- The default `derive_from_parent`. -/
def deriveChildren (ctx : ExecutionContext n) (nt : Notification n) :
    Except ExecError (Option Selection) :=
  match getSelection t ctx nt.notifier with
  | none => .ok none
  | some parent => liftIndex do
    let ids ← findChildInstanceIds db parent.getInstanceIds nt.rel.refs nt.rel.has
      (childFilter (t.unnest nt.dependent) parent.getInstanceIds) ctx.eph
    let sel ← findSymbolByInstanceId db (t.command nt.dependent) ids nt.parentScope
      nt.childrenScope ctx.eph
    return some sel

/-- `derive_from_parent` of the forced verbs: nothing cached gives no node. -/
def deriveForced (ctx : ExecutionContext n) (nt : Notification n) (v : Verb) :
    Option Selection :=
  match getSelection t ctx nt.notifier with
  | none => none
  | some parent => match ctx.cell v.id with
    | none => some .new
    | some matched => some (forcedSelection parent matched)

/-- `derive_from_parent`. -/
def deriveFromParent (ctx : ExecutionContext n) (nt : Notification n) (v : Verb) :
    Except ExecError (Option Selection) :=
  match v.kind.asUse with
  | some (_, true) => .ok (deriveForced t ctx nt v)
  | some (_, false) => .error .notForced
  | none => if v.kind.isForced then .ok (deriveForced t ctx nt v) else deriveChildren db t ctx nt

/-- `derive_from_provider`: a plain use takes the provider's selection, a forced one puts
it aside until its parent notifies. -/
def deriveFromProvider (ctx : ExecutionContext n) (nt : Notification n) (v : Verb) :
    Option Selection × ExecutionContext n :=
  match getSelection t ctx nt.notifier with
  | none => (none, ctx)
  | some provider =>
    if v.kind.isForcedUse then (none, ctx.setCell v.id provider) else (some provider, ctx)

/-- The derivation of a parent from the union of its children. -/
def deriveFromChildren (ctx : ExecutionContext n) (j : Fin n) (merged : Selection)
    (rel : RelationshipType) (parentScope : ScopeContext) : Except ExecError Selection :=
  liftIndex do
    let ids ← findParentInstanceIds db merged.getInstanceIds rel.refs rel.has
      (parentFilter (t.unnest j)) ctx.eph
    findSymbolByInstanceId db (t.command j) ids parentScope (.scope merged.getInstanceIds none)
      ctx.eph

/-! ### One selector's turn -/

/-- `ConstraintAction`. -/
inductive ConstraintAction (n : ℕ) where
  | skip
  | constrained (changed : Bool) (ctx : ExecutionContext n)
  | derive

/-- `constrain_with_warning` on a selection that exists. -/
def constrainWithWarning (dependency : Selection) (role : DependencyRole)
    (rel : RelationshipType) (context : ConstraintContext) (j : Fin n) (v : Verb)
    (s : Selection) (ctx : ExecutionContext n) : Bool × ExecutionContext n :=
  let changed := constrainChanged dependency role rel s
  let s' := constrainSelection dependency role rel s
  (changed, (ctx.setSelection v.id (some s')).warn j
    (if changed && s'.nodes.isEmpty then [.note v.span (.emptiedByConstraints context)] else []))

/-- `try_constrain_notification`.  A use verb ignores weakness, a forced one is always
derived again by its parent, and a plain one cannot be derived from its parent. -/
def tryConstrain (ctx : ExecutionContext n) (nt : Notification n) (v : Verb) :
    Except ExecError (ConstraintAction n) :=
  match v.kind.asUse with
  | some (label, isForced) =>
    if isForced && !nt.isUser then .ok .derive
    else match ctx.selection v.id with
      | some s => .ok (.constrained (constrainChanged nt.dependency nt.role nt.rel s)
          (ctx.setSelection v.id (some (constrainSelection nt.dependency nt.role nt.rel s))))
      | none => if nt.isUser then .ok .derive else .error (.circularDependency label)
  | none => match ctx.selection v.id with
    | some s =>
      if t.weak nt.notifier then .ok .skip
      else
        let r := constrainWithWarning nt.dependency nt.role nt.rel
          (.statement (t.command nt.notifier).span) nt.dependent v s ctx
        .ok (.constrained r.1 r.2)
    | none => .ok .derive

/-- Whether a notification addresses a selector: a provider addresses the uses of its
labels. -/
def Notification.addresses (nt : Notification n) (v : Verb) : Bool :=
  !nt.isUser || match v.kind.useLabel with
    | none => false
    | some l => (t.command nt.notifier).labels.contains l

/-- The turn of one selector in `accept_notification`. -/
def acceptSelector (nt : Notification n) (v : Verb) (ctx : ExecutionContext n) :
    Except ExecError (Bool × ExecutionContext n) :=
  if !(nt.addresses t v) then .ok (false, ctx)
  else match tryConstrain t ctx nt v with
    | .error e => .error e
    | .ok .skip => .ok (false, ctx)
    | .ok (.constrained changed ctx') => .ok (changed, ctx')
    | .ok .derive =>
      if nt.isUser then
        let r := deriveFromProvider t ctx nt v
        .ok (true, r.2.setSelection v.id r.1)
      else match deriveFromParent db t ctx nt v with
        | .error e => .error e
        | .ok sel => .ok (true, ctx.setSelection v.id sel)

/-- The turn of one selector in `notify_from_selection`. -/
def mergeSelector (j : Fin n) (merged : Selection) (rel : RelationshipType)
    (parentScope : ScopeContext) (v : Verb) (ctx : ExecutionContext n) :
    Except ExecError (Bool × ExecutionContext n) :=
  match ctx.selection v.id with
  | some s => .ok (constrainWithWarning merged .parent rel .children j v s ctx)
  | none => match deriveFromChildren db t ctx j merged rel parentScope with
    | .error e => .error e
    | .ok sel => .ok (true, ctx.setSelection v.id (some sel))

/-- The turns of a list of selectors; a change of one is a change of the statement. -/
def runSelectors (f : Verb → ExecutionContext n → Except ExecError (Bool × ExecutionContext n)) :
    List Verb → ExecutionContext n → Except ExecError (Bool × ExecutionContext n)
  | [], ctx => .ok (false, ctx)
  | v :: vs, ctx => match f v ctx with
    | .error e => .error e
    | .ok (changed, ctx') => match runSelectors f vs ctx' with
      | .error e => .error e
      | .ok (changed', ctx'') => .ok (changed || changed', ctx'')

/-! ### The notification -/

/-- What statement `i` sends to statement `j`, with the scopes of `j` at that moment. -/
def notification (ctx : ExecutionContext n) (i j : Fin n) (isUser : Bool)
    (dependency : Selection) : Notification n where
  notifier := i
  dependent := j
  isUser := isUser
  rel := t.relationshipType (if isUser then i else j)
  dependency := dependency
  parentScope := buildParentScope t ctx j
  childrenScope := buildChildrenScope t ctx j

/-- `accept_notification`. -/
def acceptNotification (ctx : ExecutionContext n) (i j : Fin n) (isUser : Bool) :
    Except ExecError (Bool × ExecutionContext n) :=
  match getSelection t ctx i with
  | none => .ok (false, ctx)
  | some dependency => runSelectors
      (acceptSelector db t (notification t ctx i j isUser dependency)) (t.selectors j) ctx

/-- The children whose selections constrain their parent. -/
def mergedChildren (j : Fin n) : List (Fin n) :=
  (t.children j).filter fun c => !(t.selectors c).isEmpty && !(t.shouldSkipInParentMerge c)

/-- The union of the selections of a list of children, `none` when none has one. -/
def mergeSelections (ctx : ExecutionContext n) (cs : List (Fin n)) : Option Selection :=
  (cs.filterMap (getSelection t ctx)).foldl
    (fun acc s => some ((acc.getD .new).extend s)) none

/-- Whether a parent is constrained when one of its children notifies it: every child must
have some selector resolved, and some child must have a selection to merge. -/
def constrainsParent (ctx : ExecutionContext n) (j : Fin n) : Bool :=
  (t.children j).all (isSelectionSome t ctx) &&
    (mergeSelections t ctx (mergedChildren t j)).isSome

/-- The notification of a parent by one of its children: the union of the children's
selections is what constrains. -/
def notifyFromSelection (ctx : ExecutionContext n) (i j : Fin n) :
    Except ExecError (Bool × ExecutionContext n) :=
  if !((t.children j).all (isSelectionSome t ctx)) then .ok (false, ctx)
  else match mergeSelections t ctx (mergedChildren t j) with
    | none => .ok (false, ctx)
    | some merged => runSelectors (mergeSelector db t j merged (t.relationshipType i)
        (buildParentScope t ctx j)) (t.selectors j) ctx

/-- `Statement::notify`: whether the dependent's selection changed, and the state after. -/
def notify (ctx : ExecutionContext n) (i : Fin n) (d : StatementDependent n) :
    Except ExecError (Bool × ExecutionContext n) :=
  match d.role with
  | .preSeedSibling => .ok (false, ctx)
  | .preSeedLabel _ => .ok (false, ctx)
  | .parent => notifyFromSelection db t ctx i d.statement
  | .child => acceptNotification db t ctx i d.statement false
  | .user => acceptNotification db t ctx i d.statement true

/-! ### What a turn can do -/

/-- A turn of a selector under a child or user notification, that reports `changed` and
leaves the context `ctx'`. -/
inductive AcceptTurn (nt : Notification n) (v : Verb) (ctx : ExecutionContext n) :
    Bool → ExecutionContext n → Prop
  | unaddressed (haddr : nt.addresses t v = false) : AcceptTurn nt v ctx false ctx
  | skipped (huse : v.kind.asUse = none) (hweak : t.weak nt.notifier = true)
      (hsel : (ctx.selection v.id).isSome = true) : AcceptTurn nt v ctx false ctx
  | constrained {s : Selection} {ws : List Diagnostic} (haddr : nt.addresses t v = true)
      (hsel : ctx.selection v.id = some s)
      (hweak : v.kind.asUse = none → t.weak nt.notifier = false)
      (hforced : v.kind.isForcedUse = true → nt.isUser = true) :
      AcceptTurn nt v ctx (constrainChanged nt.dependency nt.role nt.rel s)
        ((ctx.setSelection v.id
          (some (constrainSelection nt.dependency nt.role nt.rel s))).warn nt.dependent ws)
  | provided (haddr : nt.addresses t v = true) (hsel : ctx.selection v.id = none)
      (huser : nt.isUser = true) :
      AcceptTurn nt v ctx true ((deriveFromProvider t ctx nt v).2.setSelection v.id
        (deriveFromProvider t ctx nt v).1)
  | derived {sel : Option Selection} (huser : nt.isUser = false)
      (hsel : ctx.selection v.id = none ∨ v.kind.isForcedUse = true)
      (hderive : deriveFromParent db t ctx nt v = .ok sel) :
      AcceptTurn nt v ctx true (ctx.setSelection v.id sel)

/-- Every turn under a child or user notification is one of these. -/
theorem acceptSelector_turn {nt : Notification n} {v : Verb} {ctx ctx' : ExecutionContext n}
    {changed : Bool} (h : acceptSelector db t nt v ctx = .ok (changed, ctx')) :
    AcceptTurn db t nt v ctx changed ctx' := by
  unfold acceptSelector at h
  cases haddr : nt.addresses t v with
  | false =>
    obtain ⟨rfl, rfl⟩ : false = changed ∧ ctx = ctx' := by simpa [haddr] using h
    exact .unaddressed haddr
  | true =>
    simp only [haddr, Bool.not_true, Bool.false_eq_true, if_false] at h
    -- what is left once a derivation has been asked for
    have hderive : ∀ hsel : ctx.selection v.id = none ∨
          nt.isUser = false ∧ v.kind.isForcedUse = true,
        (if nt.isUser = true then Except.ok (true, (deriveFromProvider t ctx nt v).2.setSelection
            v.id (deriveFromProvider t ctx nt v).1)
          else match deriveFromParent db t ctx nt v with
            | .error e => .error e
            | .ok sel => .ok (true, ctx.setSelection v.id sel)) = .ok (changed, ctx') →
        AcceptTurn db t nt v ctx changed ctx' := by
      intro hsel h
      cases huser : nt.isUser with
      | true =>
        obtain ⟨rfl, rfl⟩ : true = changed ∧ _ = ctx' := by simpa [huser] using h
        exact .provided haddr (hsel.resolve_right (by simp [huser])) huser
      | false =>
        simp only [huser, Bool.false_eq_true, if_false] at h
        cases hd : deriveFromParent db t ctx nt v with
        | error e => simp [hd] at h
        | ok sel =>
          obtain ⟨rfl, rfl⟩ : true = changed ∧ _ = ctx' := by simpa [hd] using h
          exact .derived huser (hsel.imp_right And.right) hd
    unfold tryConstrain at h
    cases huse : v.kind.asUse with
    | none =>
      simp only [huse] at h
      cases hsel : ctx.selection v.id with
      | none =>
        simp only [hsel] at h
        exact hderive (Or.inl hsel) h
      | some s =>
        simp only [hsel] at h
        cases hweak : t.weak nt.notifier with
        | true =>
          obtain ⟨rfl, rfl⟩ : false = changed ∧ ctx = ctx' := by simpa [hweak] using h
          exact .skipped huse hweak (by simp [hsel])
        | false =>
          simp only [hweak, Bool.false_eq_true, if_false, constrainWithWarning] at h
          obtain ⟨rfl, rfl⟩ := Prod.mk.inj (Except.ok.inj h)
          exact .constrained haddr hsel (fun _ => hweak)
            (fun hf => by simp [VerbKind.isForcedUse, huse] at hf)
    | some use =>
      obtain ⟨l, isForced⟩ := use
      simp only [huse] at h
      cases hf : isForced && !nt.isUser with
      | true =>
        simp only [hf, if_true] at h
        simp only [Bool.and_eq_true, Bool.not_eq_true'] at hf
        exact hderive (Or.inr ⟨hf.2, by simp [VerbKind.isForcedUse, huse, hf.1]⟩) h
      | false =>
        simp only [hf, Bool.false_eq_true, if_false] at h
        cases hsel : ctx.selection v.id with
        | none =>
          simp only [hsel] at h
          cases huser : nt.isUser with
          | false => simp [huser] at h
          | true =>
            exact hderive (Or.inl hsel) (by simpa only [huser, if_true] using h)
        | some s =>
          simp only [hsel] at h
          obtain ⟨rfl, rfl⟩ := Prod.mk.inj (Except.ok.inj h)
          rw [← ExecutionContext.warn_nil (ctx.setSelection _ _) nt.dependent]
          refine .constrained haddr hsel (fun hn => by simp [huse] at hn) fun hfu => ?_
          simp only [VerbKind.isForcedUse, huse] at hfu
          simpa [hfu] using hf

/-- A turn of a selector under the union of its statement's children. -/
inductive MergeTurn (j : Fin n) (merged : Selection) (rel : RelationshipType)
    (parentScope : ScopeContext) (v : Verb) (ctx : ExecutionContext n) :
    Bool → ExecutionContext n → Prop
  | constrained {s : Selection} {ws : List Diagnostic} (hsel : ctx.selection v.id = some s) :
      MergeTurn j merged rel parentScope v ctx (constrainChanged merged .parent rel s)
        ((ctx.setSelection v.id (some (constrainSelection merged .parent rel s))).warn j ws)
  | derived {sel : Selection} (hsel : ctx.selection v.id = none)
      (hderive : deriveFromChildren db t ctx j merged rel parentScope = .ok sel) :
      MergeTurn j merged rel parentScope v ctx true (ctx.setSelection v.id (some sel))

/-- Every turn under the union of the children is one of these. -/
theorem mergeSelector_turn {j : Fin n} {merged : Selection} {rel : RelationshipType}
    {parentScope : ScopeContext} {v : Verb} {ctx ctx' : ExecutionContext n} {changed : Bool}
    (h : mergeSelector db t j merged rel parentScope v ctx = .ok (changed, ctx')) :
    MergeTurn db t j merged rel parentScope v ctx changed ctx' := by
  unfold mergeSelector at h
  cases hsel : ctx.selection v.id with
  | some s =>
    simp only [hsel, constrainWithWarning] at h
    obtain ⟨rfl, rfl⟩ := Prod.mk.inj (Except.ok.inj h)
    exact .constrained hsel
  | none =>
    simp only [hsel] at h
    cases hd : deriveFromChildren db t ctx j merged rel parentScope with
    | error e => simp [hd] at h
    | ok sel =>
      obtain ⟨rfl, rfl⟩ : true = changed ∧ _ = ctx' := by simpa [hd] using h
      exact .derived hsel hd

/-- **The turns of a statement's selectors**: a relation that holds of nothing done, that
composes, and that every turn keeps, holds of all of them in sequence. -/
theorem runSelectors_induction
    {f : Verb → ExecutionContext n → Except ExecError (Bool × ExecutionContext n)}
    {R : Bool → ExecutionContext n → ExecutionContext n → Prop} {vs : List Verb}
    (hrefl : ∀ ctx, R false ctx ctx)
    (htrans : ∀ {b b' ctx ctx' ctx''}, R b ctx ctx' → R b' ctx' ctx'' → R (b || b') ctx ctx'')
    (hturn : ∀ v ∈ vs, ∀ {b ctx ctx'}, f v ctx = .ok (b, ctx') → R b ctx ctx')
    {changed : Bool} {ctx ctx' : ExecutionContext n}
    (h : runSelectors f vs ctx = .ok (changed, ctx')) : R changed ctx ctx' := by
  induction vs generalizing ctx changed with
  | nil =>
    obtain ⟨rfl, rfl⟩ := Prod.mk.inj (Except.ok.inj h)
    exact hrefl ctx
  | cons v vs ih =>
    rw [runSelectors] at h
    cases hv : f v ctx with
    | error e => simp [hv] at h
    | ok r =>
      obtain ⟨b, ctx₁⟩ := r
      simp only [hv] at h
      cases hvs : runSelectors f vs ctx₁ with
      | error e => simp [hvs] at h
      | ok r' =>
        obtain ⟨b', ctx₂⟩ := r'
        simp only [hvs] at h
        obtain ⟨rfl, rfl⟩ := Prod.mk.inj (Except.ok.inj h)
        exact htrans (hturn v List.mem_cons_self hv)
          (ih (fun w hw => hturn w (List.mem_cons_of_mem v hw)) hvs)

/-- The turns of selectors with different identities, one by one: each finds its selection
as it was before the first turn, and leaves it as it is after the last. -/
theorem runSelectors_pointwise
    {f : Verb → ExecutionContext n → Except ExecError (Bool × ExecutionContext n)}
    {I : ExecutionContext n → Prop}
    {T : Verb → Bool → Option Selection → Option Selection → Prop} {vs : List Verb}
    (hturn : ∀ v ∈ vs, ∀ {b c c'}, I c → f v c = .ok (b, c') → I c' ∧
      (∀ id, id ≠ v.id → c'.selection id = c.selection id) ∧
      T v b (c.selection v.id) (c'.selection v.id))
    (hnd : (vs.map (·.id)).Nodup) {changed : Bool} {ctx ctx' : ExecutionContext n}
    (hI : I ctx) (h : runSelectors f vs ctx = .ok (changed, ctx')) :
    (∀ id, (∀ v ∈ vs, v.id ≠ id) → ctx'.selection id = ctx.selection id) ∧
      ∃ each : SelectorId → Bool, changed = vs.any (fun v => each v.id) ∧
        ∀ v ∈ vs, T v (each v.id) (ctx.selection v.id) (ctx'.selection v.id) := by
  induction vs generalizing ctx changed with
  | nil =>
    obtain ⟨rfl, rfl⟩ := Prod.mk.inj (Except.ok.inj h)
    exact ⟨fun _ _ => rfl, fun _ => false, rfl, by simp⟩
  | cons v vs ih =>
    rw [runSelectors] at h
    rw [List.map_cons, List.nodup_cons] at hnd
    cases hv : f v ctx with
    | error e => simp [hv] at h
    | ok r =>
      obtain ⟨b, ctx₁⟩ := r
      simp only [hv] at h
      cases hvs : runSelectors f vs ctx₁ with
      | error e => simp [hvs] at h
      | ok r' =>
        obtain ⟨b', ctx₂⟩ := r'
        simp only [hvs] at h
        obtain ⟨rfl, rfl⟩ := Prod.mk.inj (Except.ok.inj h)
        obtain ⟨hI₁, hsame, hT⟩ := hturn v List.mem_cons_self hI hv
        obtain ⟨hrest, each, rfl, heach⟩ := ih (fun w hw => hturn w (List.mem_cons_of_mem v hw))
          hnd.2 hI₁ hvs
        have hne : ∀ w ∈ vs, w.id ≠ v.id := fun w hw heq =>
          hnd.1 (List.mem_map.mpr ⟨w, hw, heq⟩)
        have hany : vs.any (fun w => each w.id) =
            vs.any fun w => if w.id = v.id then b else each w.id := by
          rw [Bool.eq_iff_iff, List.any_eq_true, List.any_eq_true]
          exact exists_congr fun w => and_congr_right fun hw => by rw [if_neg (hne w hw)]
        refine ⟨fun id hid => ?_, fun id => if id = v.id then b else each id, ?_, ?_⟩
        · rw [hrest id fun w hw => hid w (List.mem_cons_of_mem v hw),
            hsame id (hid v List.mem_cons_self).symm]
        · dsimp only
          rw [List.any_cons, if_pos rfl, hany]
        · intro w hw
          dsimp only
          rcases List.mem_cons.mp hw with rfl | hw
          · rw [if_pos rfl, hrest w.id hne]
            exact hT
          · rw [if_neg (hne w hw), ← hsame w.id (hne w hw)]
            exact heach w hw

/-- Turns that fail do so at some selector, after turns that went well. -/
theorem exists_of_runSelectors_error
    {f : Verb → ExecutionContext n → Except ExecError (Bool × ExecutionContext n)}
    {I : ExecutionContext n → Prop} {vs : List Verb}
    (hturn : ∀ v ∈ vs, ∀ {b ctx ctx'}, I ctx → f v ctx = .ok (b, ctx') → I ctx')
    {ctx : ExecutionContext n} (hI : I ctx) {e : ExecError}
    (h : runSelectors f vs ctx = .error e) : ∃ v ∈ vs, ∃ ctx, I ctx ∧ f v ctx = .error e := by
  induction vs generalizing ctx with
  | nil => cases h
  | cons v vs ih =>
    rw [runSelectors] at h
    cases hv : f v ctx with
    | error e' =>
      obtain rfl : e' = e := by simpa [hv] using h
      exact ⟨v, List.mem_cons_self, ctx, hI, hv⟩
    | ok r =>
      have hvs : runSelectors f vs r.2 = .error e := by
        cases hvs : runSelectors f vs r.2 with
        | error e' => simpa [hv, hvs] using h
        | ok r' => simp [hv, hvs] at h
      obtain ⟨w, hw, hwe⟩ := ih (fun w hw => hturn w (List.mem_cons_of_mem v hw))
        (hturn v List.mem_cons_self hI hv) hvs
      exact ⟨w, List.mem_cons_of_mem v hw, hwe⟩

/-- **A notification** changes nothing, or gives the selectors of a parent whose children are
all resolved their turn under the union, or gives the selectors of a child or user their turn
under the notifier's selection. -/
theorem notify_result (ctx : ExecutionContext n) (i : Fin n) (d : StatementDependent n) :
    notify db t ctx i d = .ok (false, ctx) ∨
    (d.role = .parent ∧ ∃ merged,
      (t.children d.statement).all (isSelectionSome t ctx) = true ∧
      mergeSelections t ctx (mergedChildren t d.statement) = some merged ∧
      notify db t ctx i d = runSelectors (mergeSelector db t d.statement merged
        (t.relationshipType i) (buildParentScope t ctx d.statement)) (t.selectors d.statement)
          ctx) ∨
    (∃ isUser dependency, d.role = (if isUser then .user else .child) ∧
      getSelection t ctx i = some dependency ∧
      notify db t ctx i d = runSelectors (acceptSelector db t
        (notification t ctx i d.statement isUser dependency)) (t.selectors d.statement) ctx) := by
  have haccept : ∀ isUser, d.role = (if isUser then .user else .child) →
      notify db t ctx i d = acceptNotification db t ctx i d.statement isUser →
      notify db t ctx i d = .ok (false, ctx) ∨ ∃ isUser dependency,
        d.role = (if isUser then .user else .child) ∧ getSelection t ctx i = some dependency ∧
        notify db t ctx i d = runSelectors (acceptSelector db t
          (notification t ctx i d.statement isUser dependency)) (t.selectors d.statement) ctx := by
    intro isUser hrole h
    unfold acceptNotification at h
    cases hget : getSelection t ctx i with
    | none => exact Or.inl (by simpa only [hget] using h)
    | some dependency => exact Or.inr ⟨isUser, dependency, hrole, rfl, by simpa only [hget] using h⟩
  cases hrole : d.role with
  | preSeedSibling => exact Or.inl (by simp only [notify, hrole])
  | preSeedLabel l => exact Or.inl (by simp only [notify, hrole])
  | child =>
    have := haccept false (by simp [hrole]) (by simp only [notify, hrole])
    rw [hrole] at this
    exact this.imp_right Or.inr
  | user =>
    have := haccept true (by simp [hrole]) (by simp only [notify, hrole])
    rw [hrole] at this
    exact this.imp_right Or.inr
  | parent =>
    simp only [notify, hrole, notifyFromSelection]
    cases hall : (t.children d.statement).all (isSelectionSome t ctx) with
    | false => exact Or.inl (by simp)
    | true =>
      cases hm : mergeSelections t ctx (mergedChildren t d.statement) with
      | none => exact Or.inl (by simp)
      | some merged => exact Or.inr (Or.inl ⟨trivial, merged, rfl, rfl, by simp⟩)

/-- A notification that succeeds changes nothing, or every turn it gives succeeds. -/
theorem notify_cases {ctx ctx' : ExecutionContext n} {i : Fin n} {d : StatementDependent n}
    {changed : Bool} (h : notify db t ctx i d = .ok (changed, ctx')) :
    (changed = false ∧ ctx' = ctx) ∨
    (d.role = .parent ∧ ∃ merged,
      (t.children d.statement).all (isSelectionSome t ctx) = true ∧
      mergeSelections t ctx (mergedChildren t d.statement) = some merged ∧
      runSelectors (mergeSelector db t d.statement merged (t.relationshipType i)
        (buildParentScope t ctx d.statement)) (t.selectors d.statement) ctx =
          .ok (changed, ctx')) ∨
    (∃ isUser dependency, d.role = (if isUser then .user else .child) ∧
      getSelection t ctx i = some dependency ∧
      runSelectors (acceptSelector db t (notification t ctx i d.statement isUser dependency))
        (t.selectors d.statement) ctx = .ok (changed, ctx')) := by
  have hresult := notify_result db t ctx i d
  rw [h] at hresult
  rcases hresult with heq | ⟨hrole, merged, hall, hm, heq⟩ | ⟨isUser, dependency, hrole, hget, heq⟩
  · exact Or.inl (Prod.mk.inj (Except.ok.inj heq))
  · exact Or.inr (Or.inl ⟨hrole, merged, hall, hm, heq.symm⟩)
  · exact Or.inr (Or.inr ⟨isUser, dependency, hrole, hget, heq.symm⟩)

/-- **What every turn keeps, a notification keeps.** -/
theorem notify_induction {ctx ctx' : ExecutionContext n} {i : Fin n}
    {d : StatementDependent n} {changed : Bool}
    {R : Bool → ExecutionContext n → ExecutionContext n → Prop}
    (hrefl : ∀ ctx, R false ctx ctx)
    (htrans : ∀ {b b' ctx ctx' ctx''}, R b ctx ctx' → R b' ctx' ctx'' → R (b || b') ctx ctx'')
    (hmerge : d.role = .parent → ∀ merged, ∀ v ∈ t.selectors d.statement,
      ∀ {b c c'}, MergeTurn db t d.statement merged (t.relationshipType i)
        (buildParentScope t ctx d.statement) v c b c' → R b c c')
    (haccept : ∀ isUser dependency, d.role = (if isUser then .user else .child) →
      getSelection t ctx i = some dependency → ∀ v ∈ t.selectors d.statement,
      ∀ {b c c'}, AcceptTurn db t (notification t ctx i d.statement isUser dependency) v c b c' →
        R b c c')
    (h : notify db t ctx i d = .ok (changed, ctx')) : R changed ctx ctx' := by
  rcases notify_cases db t h with ⟨rfl, rfl⟩ | ⟨hrole, merged, -, -, hrun⟩ |
    ⟨isUser, dependency, hrole, hget, hrun⟩
  · exact hrefl _
  · exact runSelectors_induction hrefl htrans
      (fun v hv _ _ _ hturn => hmerge hrole merged v hv (mergeSelector_turn db t hturn)) hrun
  · exact runSelectors_induction hrefl htrans
      (fun v hv _ _ _ hturn =>
        haccept isUser dependency hrole hget v hv (acceptSelector_turn db t hturn)) hrun

/-! ### Frames -/

/-- Two contexts that differ only in some selectors' selections and cells, and in their
warnings. -/
structure SameExcept (ids : Set SelectorId) (ctx ctx' : ExecutionContext n) : Prop where
  selection : ∀ id ∉ ids, ctx'.selection id = ctx.selection id
  cell : ∀ id ∉ ids, ctx'.cell id = ctx.cell id
  eph : ctx'.eph = ctx.eph
  layerActivations : ctx'.layerActivations = ctx.layerActivations

namespace SameExcept

variable {ids ids' : Set SelectorId} {ctx ctx' ctx'' : ExecutionContext n}

theorem refl (ids : Set SelectorId) (ctx : ExecutionContext n) : SameExcept ids ctx ctx :=
  ⟨fun _ _ => rfl, fun _ _ => rfl, rfl, rfl⟩

theorem trans (h : SameExcept ids ctx ctx') (h' : SameExcept ids ctx' ctx'') :
    SameExcept ids ctx ctx'' where
  selection id hid := (h'.selection id hid).trans (h.selection id hid)
  cell id hid := (h'.cell id hid).trans (h.cell id hid)
  eph := h'.eph.trans h.eph
  layerActivations := h'.layerActivations.trans h.layerActivations

theorem mono (h : SameExcept ids ctx ctx') (hsub : ids ⊆ ids') : SameExcept ids' ctx ctx' where
  selection id hid := h.selection id fun hid' => hid (hsub hid')
  cell id hid := h.cell id fun hid' => hid (hsub hid')
  eph := h.eph
  layerActivations := h.layerActivations

theorem setSelection (ctx : ExecutionContext n) (id : SelectorId) (s : Option Selection) :
    SameExcept {id} ctx (ctx.setSelection id s) where
  selection id' hid := by simp [show id' ≠ id from hid]
  cell _ _ := rfl
  eph := rfl
  layerActivations := rfl

theorem warn (ctx : ExecutionContext n) (i : Fin n) (ws : List Diagnostic) :
    SameExcept ids ctx (ctx.warn i ws) :=
  ⟨fun _ _ => rfl, fun _ _ => rfl, rfl, rfl⟩

theorem setCell (ctx : ExecutionContext n) (id : SelectorId) (s : Selection) :
    SameExcept {id} ctx (ctx.setCell id s) where
  selection := by simp
  cell id' hid := by simp [ExecutionContext.cell_setCell, show id' ≠ id from hid]
  eph := by simp
  layerActivations := by
    unfold ExecutionContext.setCell
    split <;> rfl

end SameExcept

variable {db t}

theorem MergeTurn.sameExcept {j : Fin n} {merged : Selection} {rel : RelationshipType}
    {parentScope : ScopeContext} {v : Verb} {ctx ctx' : ExecutionContext n} {changed : Bool}
    (h : MergeTurn db t j merged rel parentScope v ctx changed ctx') :
    SameExcept {v.id} ctx ctx' := by
  cases h with
  | constrained hsel => exact (SameExcept.setSelection ctx v.id _).trans (.warn _ j _)
  | derived hsel hderive => exact .setSelection ctx v.id _

theorem AcceptTurn.sameExcept {nt : Notification n} {v : Verb} {ctx ctx' : ExecutionContext n}
    {changed : Bool} (h : AcceptTurn db t nt v ctx changed ctx') :
    SameExcept {v.id} ctx ctx' := by
  cases h with
  | unaddressed => exact .refl _ _
  | skipped => exact .refl _ _
  | constrained => exact (SameExcept.setSelection ctx v.id _).trans (.warn _ nt.dependent _)
  | derived => exact .setSelection ctx v.id _
  | provided =>
    unfold deriveFromProvider
    split
    · exact .setSelection ctx v.id _
    · split
      · exact (SameExcept.setCell ctx v.id _).trans (.setSelection _ v.id _)
      · exact .setSelection ctx v.id _

/-- **A notification touches the dependent's selectors only.** -/
theorem notify_sameExcept {ctx ctx' : ExecutionContext n} {i : Fin n}
    {d : StatementDependent n} {changed : Bool}
    (h : notify db t ctx i d = .ok (changed, ctx')) :
    SameExcept {id | ∃ v ∈ t.selectors d.statement, v.id = id} ctx ctx' := by
  refine notify_induction (R := fun _ ctx ctx' => SameExcept _ ctx ctx') db t
    (fun ctx => .refl _ ctx) (fun h h' => h.trans h') ?_ ?_ h
  · intro _ _ v hv _ _ _ hturn
    exact hturn.sameExcept.mono (by rintro _ rfl; exact ⟨v, hv, rfl⟩)
  · intro _ _ _ _ v hv _ _ _ hturn
    exact hturn.sameExcept.mono (by rintro _ rfl; exact ⟨v, hv, rfl⟩)

/-! ### Derivations from a selection -/

/-- A notifier with a selection derives one for whoever it notifies as a parent. -/
theorem deriveFromParent_isSome {ctx : ExecutionContext n} {nt : Notification n} {v : Verb}
    {sel : Option Selection} (h : deriveFromParent db t ctx nt v = .ok sel)
    (hget : (getSelection t ctx nt.notifier).isSome = true) : sel.isSome = true := by
  obtain ⟨parent, hparent⟩ := Option.isSome_iff_exists.mp hget
  have hforced : (deriveForced t ctx nt v).isSome = true := by
    unfold deriveForced
    rw [hparent]
    cases ctx.cell v.id <;> rfl
  have hchildren : ∀ {sel}, deriveChildren db t ctx nt = .ok sel → sel.isSome = true := by
    intro sel h
    unfold deriveChildren at h
    rw [hparent] at h
    simp only [liftIndex_eq_ok] at h
    obtain ⟨ids, -, h⟩ := Fallible.bind_eq_ok.mp h
    obtain ⟨s, -, h⟩ := Fallible.bind_eq_ok.mp h
    obtain rfl := Except.ok.inj h
    rfl
  unfold deriveFromParent at h
  split at h
  · exact Except.ok.inj h ▸ hforced
  · cases h
  · split at h
    · exact Except.ok.inj h ▸ hforced
    · exact hchildren h

/-- A turn takes no selection away as long as the notifier has one. -/
theorem AcceptTurn.isSome_mono {nt : Notification n} {v : Verb} {ctx ctx' : ExecutionContext n}
    {changed : Bool} (h : AcceptTurn db t nt v ctx changed ctx')
    (hget : (getSelection t ctx nt.notifier).isSome = true) {id : SelectorId}
    (hid : (ctx.selection id).isSome = true) : (ctx'.selection id).isSome = true := by
  by_cases hne : id = v.id
  · subst hne
    cases h with
    | unaddressed => exact hid
    | skipped => exact hid
    | constrained => simp
    | provided _ hsel => simp [hsel] at hid
    | derived _ _ hderive =>
      rw [ExecutionContext.selection_setSelection_self]
      exact deriveFromParent_isSome hderive hget
  · rw [h.sameExcept.selection id hne]
    exact hid

theorem AcceptTurn.getSelection_isSome {nt : Notification n} {v : Verb}
    {ctx ctx' : ExecutionContext n} {changed : Bool}
    (h : AcceptTurn db t nt v ctx changed ctx')
    (hget : (getSelection t ctx nt.notifier).isSome = true) :
    (getSelection t ctx' nt.notifier).isSome = true := by
  obtain ⟨w, hw, hsome⟩ := (getSelection_isSome_iff t ctx nt.notifier).mp hget
  exact (getSelection_isSome_iff t ctx' nt.notifier).mpr ⟨w, hw, h.isSome_mono hget hsome⟩

theorem MergeTurn.isSome_mono {j : Fin n} {merged : Selection} {rel : RelationshipType}
    {parentScope : ScopeContext} {v : Verb} {ctx ctx' : ExecutionContext n} {changed : Bool}
    (h : MergeTurn db t j merged rel parentScope v ctx changed ctx') {id : SelectorId}
    (hid : (ctx.selection id).isSome = true) : (ctx'.selection id).isSome = true := by
  by_cases hne : id = v.id
  · subst hne
    cases h with
    | constrained => simp
    | derived => simp
  · rw [h.sameExcept.selection id hne]
    exact hid

/-- **A notification takes no selection away.** -/
theorem notify_isSome_mono {ctx ctx' : ExecutionContext n} {i : Fin n}
    {d : StatementDependent n} {changed : Bool}
    (h : notify db t ctx i d = .ok (changed, ctx')) {id : SelectorId}
    (hid : (ctx.selection id).isSome = true) : (ctx'.selection id).isSome = true := by
  rcases notify_cases db t h with ⟨-, rfl⟩ | ⟨-, merged, -, -, hrun⟩ |
    ⟨isUser, dependency, -, hget, hrun⟩
  · exact hid
  · exact runSelectors_induction (R := fun _ c c' => (c.selection id).isSome = true →
      (c'.selection id).isSome = true) (fun _ h => h) (fun h h' hc => h' (h hc))
      (fun v _ _ _ _ hturn hc => (mergeSelector_turn db t hturn).isSome_mono hc) hrun hid
  · refine (runSelectors_induction (R := fun _ c c' =>
      (getSelection t c i).isSome = true ∧ (c.selection id).isSome = true →
      (getSelection t c' i).isSome = true ∧ (c'.selection id).isSome = true)
      (fun _ h => h) (fun h h' hc => h' (h hc)) (fun v _ _ _ _ hturn hc => ?_) hrun
      ⟨by simp [hget], hid⟩).2
    have hturn := acceptSelector_turn db t hturn
    exact ⟨hturn.getSelection_isSome hc.1, hturn.isSome_mono hc.1 hc.2⟩

/-- **A notification of selectors that are all resolved, none of them a use, succeeds.** -/
theorem exists_notify_eq_ok {ctx : ExecutionContext n} {i : Fin n} {d : StatementDependent n}
    (huse : ∀ v ∈ t.selectors d.statement, v.kind.asUse = none)
    (hsome : ∀ v ∈ t.selectors d.statement, (ctx.selection v.id).isSome = true) :
    ∃ r, notify db t ctx i d = .ok r := by
  cases h : notify db t ctx i d with
  | ok r => exact ⟨r, rfl⟩
  | error e =>
    exfalso
    rcases notify_result db t ctx i d with heq | ⟨-, merged, -, -, heq⟩ |
      ⟨isUser, dependency, -, hget, heq⟩
    · simp [heq] at h
    · rw [heq] at h
      obtain ⟨v, hv, c, hc, he⟩ := exists_of_runSelectors_error
        (I := fun c => ∀ v ∈ t.selectors d.statement, (c.selection v.id).isSome = true)
        (fun v _ _ _ _ hc hturn w hw => (mergeSelector_turn db t hturn).isSome_mono (hc w hw))
        hsome h
      obtain ⟨s, hs⟩ := Option.isSome_iff_exists.mp (hc v hv)
      simp [mergeSelector, hs] at he
    · rw [heq] at h
      obtain ⟨v, hv, c, hc, he⟩ := exists_of_runSelectors_error
        (I := fun c => (getSelection t c i).isSome = true ∧
          ∀ v ∈ t.selectors d.statement, (c.selection v.id).isSome = true)
        (fun v _ _ _ _ hc hturn => by
          have hturn := acceptSelector_turn db t hturn
          exact ⟨hturn.getSelection_isSome hc.1, fun w hw => hturn.isSome_mono hc.1 (hc.2 w hw)⟩)
        ⟨by simp [hget], hsome⟩ h
      obtain ⟨s, hs⟩ := Option.isSome_iff_exists.mp (hc.2 v hv)
      unfold acceptSelector at he
      split at he
      · cases he
      · simp only [tryConstrain, huse v hv, hs] at he
        cases hw : t.weak (notification t ctx i d.statement isUser dependency).notifier with
        | true => simp [hw] at he
        | false => simp [hw] at he

end Askl
