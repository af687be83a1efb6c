import Askl.Query.ParentMerge
import Askl.Query.SelectedRows

/-!
# Forced children

A forced verb below a name takes its matches out of its cell when its parent first notifies
it, and fabricates a reference from every node of the parent to every one of them.  These
references keep the parent's nodes from then on.  The matches themselves are kept only until
the parent notifies again: the second notification constrains them by the references the
parent has recorded, and knows nothing of the fabricated ones.

## Main definitions

* `ForcedChild` — a statement whose only selector is a forced verb, below another one.
* `Covers` — the fabricated references join all nodes of the parent and all matches.
* `forcedSafe` — the notification under way spares the matches and the parent's nodes.
* `ForcedState` — what a run of safe steps keeps.

## Main results

* `Covers.kept` — **no notification from below takes a node from the parent.**
* `ForcedState.step` — a safe step keeps the forced child's state.
* `forcedChild_of_run` — **a run of safe steps keeps the parent's nodes and all matches.**
* `not_forcedChild_of_renotified` — a parent that is constrained from above, and one whose
  children follow containment only.
-/

namespace Askl

open Relation

variable {n : ℕ} (db : Database) (t : StatementTree n)

/-- The only selector of `f` is a forced verb, its parent is `p`, and it has no children. -/
structure ForcedChild (f p : Fin n) (v : Verb) (pattern : CompositeFilter) : Prop where
  parent : t.parent f = some p
  childless : t.children f = []
  selectors : t.selectors f = [v]
  kind : v.kind = .forced pattern

/-- The forced verb holds all its matches, and a fabricated reference to each of them from
every node of every selector of the parent. -/
def Covers (p : Fin n) (v : Verb) (matched : Selection) (ctx : ExecutionContext n) : Prop :=
  ∃ s, ctx.selection v.id = some s ∧ s.nodes = matched.nodes ∧
    ∀ w ∈ t.selectors p, ∃ sw, ctx.selection w.id = some sw ∧
      ∀ a ∈ sw.nodes, ∀ c ∈ matched.nodes, forcedReference a c ∈ s.parents

/-- Whether the notification under way spares a forced child `f` of `p`.  The parent first
notifies it when all selectors of the parent are resolved, and notifies it again only when the
parent is weak or has recorded an edge to every match; and the parent of the parent does not
make forced uses of `p` grow. -/
def forcedSafe (f p : Fin n) (st : WorkState n) : Bool :=
  match st.queue with
  | [] => true
  | (_, d) :: _ =>
    if d.role = .child && d.statement = f then match getSelection t st.ctx p with
      | none => true
      | some parent => match getSelection t st.ctx f with
        | none => (t.selectors p).all fun w => (st.ctx.selection w.id).isSome
        | some s => t.weak p || s.nodes.all (parent.supportedByParent (t.relationshipType f))
    else if d.role = .child && d.statement = p then
      (getSelection t st.ctx f).isNone || (t.selectors p).all fun w => !w.kind.isForcedUse
    else true

/-- What a run of safe steps keeps: the cell, all matches once the parent has notified, and
until then the notification is due as soon as the parent has a selection. -/
structure ForcedState (f p : Fin n) (v : Verb) (matched : Selection) (st : WorkState n) :
    Prop where
  consistent : st.Consistent t
  cell : st.ctx.cell v.id = some matched
  covers : st.ctx.selection v.id = none ∨ Covers t p v matched st.ctx
  due : (getSelection t st.ctx p).isSome = true → p ∈ st.worklist ∨
    (∃ e ∈ st.queue, e.1 = p ∧ e.2.role = .child ∧ e.2.statement = f) ∨
      (st.ctx.selection v.id).isSome = true

variable {db t}

/-! ### Turns -/

/-- A notification that gives no forced use a new selection only cuts selections down. -/
theorem notify_shrinks {ctx ctx' : ExecutionContext n} {i : Fin n} {d : StatementDependent n}
    {changed : Bool} (h : notify db t ctx i d = .ok (changed, ctx'))
    (hforced : d.role = .child → ∀ w ∈ t.selectors d.statement, w.kind.isForcedUse = false)
    {w : Verb} (hw : w ∈ t.selectors d.statement) {s : Selection}
    (hs : ctx.selection w.id = some s) :
    ∃ s', ctx'.selection w.id = some s' ∧ s'.nodes ⊆ s.nodes := by
  rcases notify_cases db t h with ⟨-, rfl⟩ | ⟨-, merged, -, -, hrun⟩ |
    ⟨isUser, dependency, hrole, -, hrun⟩
  · exact ⟨s, hs, List.Subset.refl _⟩
  · obtain ⟨-, each, -, heach⟩ := runSelectors_pointwise (I := fun _ => True)
      (T := fun _ _ before after => ∀ s, before = some s →
        ∃ s', after = some s' ∧ s'.nodes ⊆ s.nodes)
      (fun w _ b c c' _ hturn => by
        have hturn := mergeSelector_turn db t hturn
        refine ⟨trivial, fun id hid => hturn.sameExcept.selection id hid, ?_⟩
        intro s hs
        cases hturn with
        | constrained hsel =>
          obtain rfl := Option.some.inj (hsel.symm.trans hs)
          exact ⟨_, ExecutionContext.selection_setSelection_self _ _ _,
            nodes_constrainSelection_subset _ _ _ _⟩
        | derived hsel _ => simp [hsel] at hs)
      (t.id_nodup d.statement) trivial hrun
    exact heach w hw s hs
  · obtain ⟨-, each, -, heach⟩ := runSelectors_pointwise (I := fun _ => True)
      (T := fun _ _ before after => ∀ s, before = some s →
        ∃ s', after = some s' ∧ s'.nodes ⊆ s.nodes)
      (fun w hw b c c' _ hturn => by
        have hturn := acceptSelector_turn db t hturn
        refine ⟨trivial, fun id hid => hturn.sameExcept.selection id hid, ?_⟩
        intro s hs
        cases hturn with
        | unaddressed => exact ⟨s, hs, List.Subset.refl _⟩
        | skipped => exact ⟨s, hs, List.Subset.refl _⟩
        | constrained _ hsel =>
          obtain rfl := Option.some.inj (hsel.symm.trans hs)
          exact ⟨_, ExecutionContext.selection_setSelection_self _ _ _,
            nodes_constrainSelection_subset _ _ _ _⟩
        | provided _ hsel => simp [hsel] at hs
        | derived huser hsel _ =>
          rcases hsel with hsel | hf
          · simp [hsel] at hs
          · have hchild : d.role = .child := by
              rw [hrole, show isUser = false from huser]
              rfl
            simp [hforced hchild w hw] at hf)
      (t.id_nodup d.statement) trivial hrun
    exact heach w hw s hs

/-- A notification that reports no change gives no selector its first selection. -/
theorem isSome_of_unchanged {ctx ctx' : ExecutionContext n} {i : Fin n}
    {d : StatementDependent n} (h : notify db t ctx i d = .ok (false, ctx')) {id : SelectorId}
    (hid : (ctx'.selection id).isSome = true) : (ctx.selection id).isSome = true := by
  refine notify_induction (R := fun b c c' => b = false → (c'.selection id).isSome = true →
    (c.selection id).isSome = true) db t (fun _ _ h => h) ?_ ?_ ?_ h rfl hid
  · intro b b' c c' c'' h h' hb hid
    obtain ⟨hb, hb'⟩ := Bool.or_eq_false_iff.mp hb
    exact h hb (h' hb' hid)
  · intro _ merged v _ b c c' hturn hb hid
    by_cases hne : id = v.id
    · subst hne
      cases hturn with
      | constrained hsel => simp [hsel]
      | derived => cases hb
    · rwa [hturn.sameExcept.selection id hne] at hid
  · intro _ _ _ _ v _ b c c' hturn hb hid
    by_cases hne : id = v.id
    · subst hne
      cases hturn with
      | unaddressed => exact hid
      | skipped _ _ hsel => exact hsel
      | constrained _ hsel => simp [hsel]
      | provided => cases hb
      | derived => cases hb
    · rwa [hturn.sameExcept.selection id hne] at hid

/-- The turn of a statement with one selector. -/
theorem runSelectors_singleton
    {g : Verb → ExecutionContext n → Except ExecError (Bool × ExecutionContext n)} {v : Verb}
    {ctx ctx' : ExecutionContext n} {changed : Bool}
    (h : runSelectors g [v] ctx = .ok (changed, ctx')) : g v ctx = .ok (changed, ctx') := by
  unfold runSelectors at h
  cases hv : g v ctx with
  | error e => simp [hv] at h
  | ok r =>
    obtain rfl : r = (changed, ctx') := by simpa [hv, runSelectors] using h
    rfl

/-! ### The forced child -/

namespace ForcedChild

variable {f p : Fin n} {v : Verb} {pattern : CompositeFilter} (hf : ForcedChild t f p v pattern)

include hf

theorem mem : v ∈ t.selectors f := by simp [hf.selectors]

theorem asUse : v.kind.asUse = none := by simp [hf.kind, VerbKind.asUse]

theorem isForcedUse : v.kind.isForcedUse = false := by simp [VerbKind.isForcedUse, hf.asUse]

theorem parent_ne : p ≠ f := (t.parent_lt hf.parent).ne

/-- The forced verb belongs to its own statement only. -/
theorem eq_of_id {j : Fin n} {w : Verb} (hw : w ∈ t.selectors j) (hid : w.id = v.id) :
    j = f ∧ w = v := by
  obtain rfl := t.id_inj hw hf.mem hid
  refine ⟨?_, rfl⟩
  by_contra hne
  have hunit := t.id_shared hw hf.mem hne
  simp [hf.kind] at hunit

/-- The parent shares no selector, since the forced child would have inherited it. -/
theorem parent_eq_of_id {j : Fin n} {u w : Verb} (hw : w ∈ t.selectors p)
    (hu : u ∈ t.selectors j) (hid : u.id = w.id) : j = p := by
  obtain rfl := t.id_inj hu hw hid
  by_contra hne
  have hmem : u ∈ t.selectors f := t.inherited hw hu (Ne.symm hne) hf.parent
  obtain rfl : u = v := by simpa [hf.selectors] using hmem
  have hunit := t.id_shared hw hu (Ne.symm hne)
  simp [hf.kind] at hunit

theorem getSelection_eq (ctx : ExecutionContext n) :
    getSelection t ctx f = ctx.selection v.id := by
  unfold getSelection
  rw [hf.selectors]
  cases h : ctx.selection v.id <;> simp [gather, gatherStep, h]

/-- The forced child is one of the children that are merged for the parent. -/
theorem mem_mergedChildren : f ∈ mergedChildren t p := by
  have hunit : (t.command f).isUnit = false := by
    have hsel : (t.command f).selectors = [v] := hf.selectors
    simp [Command.isUnit, hsel, VerbKind.isUnit, hf.kind]
  refine Askl.mem_mergedChildren.mpr ⟨t.mem_children.mpr hf.parent, by simp [hf.selectors], ?_⟩
  simp [StatementTree.shouldSkipInParentMerge, hunit]

/-- A notification of another statement leaves the forced verb alone. -/
theorem selection_eq {ctx ctx' : ExecutionContext n} {i : Fin n} {d : StatementDependent n}
    {changed : Bool} (h : notify db t ctx i d = .ok (changed, ctx')) (hne : d.statement ≠ f) :
    ctx'.selection v.id = ctx.selection v.id ∧ ctx'.cell v.id = ctx.cell v.id := by
  have hsame := notify_sameExcept h
  have hnot : v.id ∉ {id | ∃ w ∈ t.selectors d.statement, w.id = id} := by
    rintro ⟨w, hw, hid⟩
    exact hne (hf.eq_of_id hw hid).1
  exact ⟨hsame.selection _ hnot, hsame.cell _ hnot⟩

/-- A notification of another statement leaves the parent's selectors alone. -/
theorem parent_selection_eq {ctx ctx' : ExecutionContext n} {i : Fin n}
    {d : StatementDependent n} {changed : Bool} (h : notify db t ctx i d = .ok (changed, ctx'))
    (hne : d.statement ≠ p) {w : Verb} (hw : w ∈ t.selectors p) :
    ctx'.selection w.id = ctx.selection w.id := by
  refine (notify_sameExcept h).selection _ ?_
  rintro ⟨u, hu, hid⟩
  exact hne (hf.parent_eq_of_id hw hu hid)

/-! ### Notifications of the forced child -/

/-- The first notification by the parent takes the matches out of the cell. -/
theorem selection_of_derived {ctx ctx' : ExecutionContext n} {d : StatementDependent n}
    {changed : Bool} (hrole : d.role = .child) (hd : d.statement = f)
    (h : notify db t ctx p d = .ok (changed, ctx')) {parent matched : Selection}
    (hget : getSelection t ctx p = some parent) (hcell : ctx.cell v.id = some matched)
    (hnone : ctx.selection v.id = none) :
    ctx'.selection v.id = some (forcedSelection parent matched) ∧
      ctx'.cell v.id = ctx.cell v.id := by
  simp only [notify, hrole, acceptNotification, hget, hd, hf.selectors] at h
  have hturn := acceptSelector_turn db t (runSelectors_singleton h)
  cases hturn with
  | unaddressed haddr => simp [Notification.addresses, notification] at haddr
  | skipped _ _ hsel => simp [hnone] at hsel
  | constrained _ hsel => simp [hnone] at hsel
  | provided _ _ huser => simp [notification] at huser
  | derived _ _ hderive =>
    have hforced : v.kind.isForced = true := by simp [hf.kind, VerbKind.isForced]
    rw [deriveFromParent, hf.asUse] at hderive
    simp only [hforced, if_true] at hderive
    rw [ExecutionContext.selection_setSelection_self, ← Except.ok.inj hderive]
    simp [deriveForced, notification, hget, hcell]

/-- A later notification by the parent spares the matches when the parent is weak or has
recorded edges to all of them. -/
theorem selection_of_renotified {ctx ctx' : ExecutionContext n} {d : StatementDependent n}
    {changed : Bool} (hrole : d.role = .child) (hd : d.statement = f)
    (h : notify db t ctx p d = .ok (changed, ctx')) {parent s : Selection}
    (hget : getSelection t ctx p = some parent) (hs : ctx.selection v.id = some s)
    (hsafe : t.weak p = true ∨
      ∀ a ∈ s.nodes, parent.supportedByParent (t.relationshipType f) a = true) :
    ctx'.selection v.id = some s ∧ ctx'.cell v.id = ctx.cell v.id := by
  simp only [notify, hrole, acceptNotification, hget, hd, hf.selectors] at h
  have hturn := acceptSelector_turn db t (runSelectors_singleton h)
  cases hturn with
  | unaddressed haddr => simp [Notification.addresses, notification] at haddr
  | skipped => exact ⟨hs, rfl⟩
  | constrained _ hsel hweak _ =>
    obtain rfl := Option.some.inj (hsel.symm.trans hs)
    have hall := hsafe.resolve_left (by simpa [notification] using hweak hf.asUse)
    rw [constrainSelection_eq_self]
    · exact ⟨ExecutionContext.selection_setSelection_self _ _ _, rfl⟩
    · by_contra hchanged
      obtain ⟨a, ha, hunsup⟩ := constrainChanged_iff.mp (by simpa using hchanged)
      have hsup := hall a ha
      simp [notification, Notification.role, supported, hsup] at hunsup
  | provided _ _ huser => simp [notification] at huser
  | derived _ hsel _ =>
    rcases hsel with hsel | hforced
    · simp [hsel] at hs
    · simp [hf.isForcedUse] at hforced

/-- A provider never addresses the forced verb. -/
theorem selection_of_user {ctx ctx' : ExecutionContext n} {i : Fin n} {d : StatementDependent n}
    {changed : Bool} (hrole : d.role = .user) (hd : d.statement = f)
    (h : notify db t ctx i d = .ok (changed, ctx')) :
    ctx'.selection v.id = ctx.selection v.id ∧ ctx'.cell v.id = ctx.cell v.id := by
  have haddr : ∀ dependency,
      (notification t ctx i d.statement true dependency).addresses t v = false := by
    simp [Notification.addresses, notification, VerbKind.useLabel, hf.asUse]
  cases hget : getSelection t ctx i with
  | none =>
    obtain ⟨-, rfl⟩ : changed = false ∧ ctx' = ctx := by
      simpa [notify, hrole, acceptNotification, hget, eq_comm] using h
    exact ⟨rfl, rfl⟩
  | some dependency =>
    have haddr := haddr dependency
    simp only [notify, hrole, acceptNotification, hget] at h
    rw [hd] at h haddr
    rw [hf.selectors] at h
    have hturn := runSelectors_singleton h
    simp only [acceptSelector, haddr, Bool.not_false, if_true] at hturn
    obtain ⟨-, rfl⟩ := Prod.mk.inj (Except.ok.inj hturn)
    exact ⟨rfl, rfl⟩

end ForcedChild

/-! ### The parent -/

section Covers

variable {f p : Fin n} {v : Verb} {pattern : CompositeFilter} {matched : Selection}
  (hf : ForcedChild t f p v pattern)

/-- The first notification of the forced child covers the parent's nodes, once all selectors
of the parent are resolved. -/
theorem covers_of_derived {ctx ctx' : ExecutionContext n} {parent matched : Selection}
    (hget : getSelection t ctx p = some parent)
    (hall : ∀ w ∈ t.selectors p, (ctx.selection w.id).isSome = true)
    (hsel : ctx'.selection v.id = some (forcedSelection parent matched))
    (hsame : ∀ w ∈ t.selectors p, ctx'.selection w.id = ctx.selection w.id) :
    Covers t p v matched ctx' := by
  refine ⟨_, hsel, rfl, fun w hw => ?_⟩
  obtain ⟨sw, hsw⟩ := Option.isSome_iff_exists.mp (hall w hw)
  refine ⟨sw, (hsame w hw).trans hsw, fun a ha c hc => ?_⟩
  -- when all selectors are resolved, the parent's selection holds the nodes of each
  have hmem : a ∈ parent.nodes := by
    rw [gather_nodes hget, contributing_eq_self hall]
    exact List.mem_flatMap.mpr ⟨w, hw, by simpa [hsw] using ha⟩
  exact List.mem_flatMap.mpr ⟨a, hmem, List.mem_map_of_mem hc⟩

theorem Covers.congr {ctx ctx' : ExecutionContext n} (h : Covers t p v matched ctx)
    (hsel : ctx'.selection v.id = ctx.selection v.id)
    (hshrink : ∀ w ∈ t.selectors p, ∀ s, ctx.selection w.id = some s →
      ∃ s', ctx'.selection w.id = some s' ∧ s'.nodes ⊆ s.nodes) : Covers t p v matched ctx' := by
  obtain ⟨s, hs, hnodes, hcov⟩ := h
  refine ⟨s, hsel.trans hs, hnodes, fun w hw => ?_⟩
  obtain ⟨sw, hsw, hrefs⟩ := hcov w hw
  obtain ⟨sw', hsw', hsub⟩ := hshrink w hw sw hsw
  exact ⟨sw', hsw', fun a ha => hrefs a (hsub ha)⟩

include hf

/-- **A parent whose children follow references keeps its nodes**, whichever child notifies
it, once the fabricated references cover them. -/
theorem Covers.kept {ctx ctx' : ExecutionContext n} (h : Covers t p v matched ctx)
    (hrefs : (t.relationshipType f).refs = true) (hne : matched.nodes ≠ [])
    (hrows : SelectedRows db t ctx) {i : Fin n} {d : StatementDependent n}
    (hrole : d.role = .parent) (hparent : t.parent i = some d.statement) (hd : d.statement = p)
    {changed : Bool} (hnotify : notify db t ctx i d = .ok (changed, ctx')) {w : Verb}
    (hw : w ∈ t.selectors p) {sw : Selection} (hsw : ctx.selection w.id = some sw) :
    ∃ s', ctx'.selection w.id = some s' ∧ ∀ a ∈ sw.nodes, a ∈ s'.nodes := by
  obtain ⟨s, hs, hnodes, hcov⟩ := h
  obtain ⟨c, hc⟩ := List.exists_mem_of_ne_nil _ hne
  obtain ⟨sw', hsw', hfake⟩ := hcov w hw
  obtain rfl := Option.some.inj (hsw'.symm.trans hsw)
  have hkept := kept_of_supported hrole hparent hnotify
  rw [hd] at hkept
  have hgetf : getSelection t ctx f = some s := (hf.getSelection_eq ctx).trans hs
  -- a fabricated reference to any match supports a node, since instances belong to their symbols
  have hsup : ∀ a ∈ sw'.nodes, s.supportedByChild (t.relationshipType f) a = true := by
    intro a ha
    obtain ⟨-, -, -, -, hinst, -, -⟩ := (mem_currentRows db).mp (hrows.selection w hw sw' hsw a ha)
    rw [Selection.supportedByChild_iff]
    exact Or.inl ⟨hrefs, _, hfake a ha c hc, hinst.symm, c, hnodes ▸ hc, rfl⟩
  obtain ⟨s', hs', -⟩ := notify_shrinks hnotify (by simp [hrole]) (hd ▸ hw) hsw
  refine ⟨s', hs', fun a ha => ?_⟩
  obtain ⟨s'', hs'', hmem⟩ := hkept f hf.mem_mergedChildren s hgetf w hw sw' hsw a ha (hsup a ha)
  exact Option.some.inj (hs''.symm.trans hs') ▸ hmem

end Covers

/-! ### Steps -/

section Step

variable {f p : Fin n} {v : Verb} {pattern : CompositeFilter} {matched : Selection}
  (hf : ForcedChild t f p v pattern)

include hf

/-- A pop takes up no selection of the forced verb; a pop of the parent makes its notification
due. -/
theorem ForcedState.pop {st : WorkState n} (h : ForcedState t f p v matched st) {k : ℕ}
    {i : Fin n} (hqueue : st.queue = []) (hget : st.worklist[k]? = some i) :
    ForcedState t f p v matched (st.pop t k i) := by
  have hupdate : ∀ id, (st.pop t k i).ctx.selection id = _ :=
    updateState_selection (t := t) st.ctx i
  have hv : (st.pop t k i).ctx.selection v.id = st.ctx.selection v.id := by
    rw [hupdate, if_neg]
    rintro ⟨⟨w, hw, hid, hforced⟩, -⟩
    obtain ⟨-, rfl⟩ := hf.eq_of_id hw hid
    simp [hf.isForcedUse] at hforced
  refine ⟨h.consistent.pop hget, ?_, ?_, fun hp => ?_⟩
  · rw [show (st.pop t k i).ctx.cell = st.ctx.cell from updateState_cell st.ctx i]
    exact h.cell
  · rw [hv]
    refine h.covers.imp_right fun hcov => hcov.congr hv fun w hw s hs => ⟨s, ?_, by simp⟩
    rw [hupdate, if_neg (by simp [hs]), hs]
  · by_cases hip : i = p
    · subst hip
      refine Or.inr (Or.inl ⟨(i, ⟨f, .child, none⟩), ?_, rfl, rfl, rfl⟩)
      have hsel : hasSelection t (updateState t st.ctx i) i = true :=
        (hasSelection_iff t _ i).mpr hp
      have hedge : (⟨f, .child, none⟩ : StatementDependent n) ∈ t.dependents i :=
        (t.mem_dependents_child rfl).mpr ⟨hf.parent, rfl⟩
      exact (by simpa [WorkState.pop, notifications, hsel] using hedge)
    · have hsame : getSelection t (st.pop t k i).ctx p = getSelection t st.ctx p := by
        refine gather_congr fun w hw => ?_
        rw [hupdate, if_neg]
        rintro ⟨⟨u, hu, hid, -⟩, -⟩
        exact hip (hf.parent_eq_of_id hw hu hid)
      rw [hsame] at hp
      rcases h.due hp with hmem | ⟨e, he, -⟩ | hsome
      · exact Or.inl ((mem_swapRemove h.consistent.nodup hget).mpr ⟨hmem, Ne.symm hip⟩)
      · simp [hqueue] at he
      · exact Or.inr (Or.inr (hv ▸ hsome))

/-- A notification of the forced child itself. -/
theorem ForcedState.notified {ctx ctx' : ExecutionContext n} {worklist : List (Fin n)}
    {i : Fin n} {d : StatementDependent n} {rest : List (Fin n × StatementDependent n)}
    {changed : Bool} (h : ForcedState t f p v matched ⟨ctx, worklist, (i, d) :: rest⟩)
    (hsafe : forcedSafe t f p ⟨ctx, worklist, (i, d) :: rest⟩ = true) (hd : d.statement = f)
    (hnotify : notify db t ctx i d = .ok (changed, ctx')) :
    ctx'.cell v.id = some matched ∧ (ctx'.selection v.id = none ∨ Covers t p v matched ctx') ∧
      ((ctx.selection v.id).isSome = true → (ctx'.selection v.id).isSome = true) ∧
      (d.role = .child → (getSelection t ctx p).isSome = true →
        (ctx'.selection v.id).isSome = true) := by
  have hedge := h.consistent.mem_dependents (i, d) List.mem_cons_self
  have hparent : ∀ w ∈ t.selectors p, ctx'.selection w.id = ctx.selection w.id :=
    fun w hw => hf.parent_selection_eq hnotify (fun heq => hf.parent_ne (heq.symm.trans hd)) hw
  -- whatever leaves the forced verb alone keeps what covers it
  have hkeep : ctx'.selection v.id = ctx.selection v.id → ctx'.cell v.id = ctx.cell v.id →
      ctx'.cell v.id = some matched ∧ (ctx'.selection v.id = none ∨ Covers t p v matched ctx') ∧
        ((ctx.selection v.id).isSome = true → (ctx'.selection v.id).isSome = true) := by
    intro hsel hcell
    refine ⟨hcell.trans h.cell, ?_, fun hsome => hsel ▸ hsome⟩
    rw [hsel]
    exact h.covers.imp_right fun hcov => hcov.congr hsel fun w hw s hs =>
      ⟨s, (hparent w hw).trans hs, List.Subset.refl _⟩
  cases hrole : d.role with
  | child =>
    obtain rfl : i = p := by
      have hpi := ((t.mem_dependents_child hrole).mp hedge).1
      rw [hd, hf.parent] at hpi
      exact (Option.some.inj hpi).symm
    cases hget : getSelection t ctx i with
    | none =>
      obtain ⟨-, rfl⟩ : changed = false ∧ ctx' = ctx := by
        simpa [notify, hrole, acceptNotification, hget, eq_comm] using hnotify
      obtain ⟨h₁, h₂, h₃⟩ := hkeep rfl rfl
      exact ⟨h₁, h₂, h₃, by simp⟩
    | some parent =>
      cases hs : ctx.selection v.id with
      | none =>
        have hall : ∀ w ∈ t.selectors i, (ctx.selection w.id).isSome = true := by
          simpa [forcedSafe, hrole, hd, hget, hf.getSelection_eq, hs] using hsafe
        obtain ⟨hsel, hcell⟩ := hf.selection_of_derived hrole hd hnotify hget h.cell hs
        exact ⟨hcell.trans h.cell, Or.inr (covers_of_derived hget hall hsel hparent),
          by simp, fun _ _ => by simp [hsel]⟩
      | some s =>
        have hspare : t.weak i = true ∨
            ∀ a ∈ s.nodes, parent.supportedByParent (t.relationshipType f) a = true := by
          simpa [forcedSafe, hrole, hd, hget, hf.getSelection_eq, hs] using hsafe
        obtain ⟨hsel, hcell⟩ := hf.selection_of_renotified hrole hd hnotify hget hs hspare
        obtain ⟨h₁, h₂, -⟩ := hkeep (hsel.trans hs.symm) hcell
        exact ⟨h₁, h₂, fun _ => by simp [hsel], fun _ _ => by simp [hsel]⟩
  | user =>
    obtain ⟨hsel, hcell⟩ := hf.selection_of_user hrole hd hnotify
    obtain ⟨h₁, h₂, h₃⟩ := hkeep hsel hcell
    exact ⟨h₁, h₂, h₃, by simp⟩
  | parent =>
    have hchild := t.mem_children.mpr ((t.mem_dependents_parent hrole).mp hedge).1
    rw [hd, hf.childless] at hchild
    simp at hchild
  | preSeedSibling | preSeedLabel =>
    obtain ⟨-, rfl⟩ : changed = false ∧ ctx' = ctx := by
      simpa [notify, hrole, eq_comm] using hnotify
    obtain ⟨h₁, h₂, h₃⟩ := hkeep rfl rfl
    exact ⟨h₁, h₂, h₃, by simp⟩

/-- **A safe step keeps the forced child's state.** -/
theorem ForcedState.step {st st' : WorkState n} (h : ForcedState t f p v matched st)
    (hsafe : forcedSafe t f p st = true) (hstep : Step db t st st') :
    ForcedState t f p v matched st' := by
  cases hstep with
  | pop hqueue hget => exact h.pop hf hqueue hget
  | @notify ctx ctx' worklist i d rest changed hnotify =>
    have hcons : (WorkState.mk ctx' (scheduleIf changed worklist d.statement) rest).Consistent t :=
      h.consistent.step (.notify hnotify)
    -- what was due stays due, unless it is the notification at hand
    have hdue : (getSelection t ctx p).isSome = true → ¬(d.role = .child ∧ d.statement = f) →
        ((ctx.selection v.id).isSome = true → (ctx'.selection v.id).isSome = true) →
        p ∈ scheduleIf changed worklist d.statement ∨
          (∃ e ∈ rest, e.1 = p ∧ e.2.role = .child ∧ e.2.statement = f) ∨
            (ctx'.selection v.id).isSome = true := by
      intro hp hother hmono
      rcases h.due hp with hmem | ⟨e, he, hep, hrole, hef⟩ | hsome
      · exact Or.inl (mem_scheduleIf.mpr (Or.inl hmem))
      · rcases List.mem_cons.mp he with rfl | he
        · exact absurd ⟨hrole, hef⟩ hother
        · exact Or.inr (Or.inl ⟨e, he, hep, hrole, hef⟩)
      · exact Or.inr (Or.inr (hmono hsome))
    have hgetp : d.statement ≠ p → getSelection t ctx' p = getSelection t ctx p :=
      fun hne => gather_congr fun w hw => hf.parent_selection_eq hnotify hne hw
    by_cases hd : d.statement = f
    · obtain ⟨hcell, hcov, hmono, hderived⟩ := h.notified hf hsafe hd hnotify
      refine ⟨hcons, hcell, hcov, fun hp => ?_⟩
      change (getSelection t ctx' p).isSome = true at hp
      rw [hgetp fun heq => hf.parent_ne (heq.symm.trans hd)] at hp
      by_cases hchild : d.role = .child
      · exact Or.inr (Or.inr (hderived hchild hp))
      · exact hdue hp (fun hboth => hchild hboth.1) hmono
    · obtain ⟨hsel, hcell⟩ := hf.selection_eq hnotify hd
      have hmono : (ctx.selection v.id).isSome = true → (ctx'.selection v.id).isSome = true :=
        fun hsome => hsel ▸ hsome
      refine ⟨hcons, hcell.trans h.cell, ?_, fun hp => ?_⟩
      · change ctx'.selection v.id = none ∨ Covers t p v matched ctx'
        rw [hsel]
        refine h.covers.imp_right fun hcov => hcov.congr hsel fun w hw s hs => ?_
        by_cases hdp : d.statement = p
        · refine notify_shrinks hnotify (fun hchild => ?_) (hdp ▸ hw) hs
          obtain ⟨sv, hsv, -⟩ := hcov
          have hne := hf.parent_ne
          have hnouse : ∀ w ∈ t.selectors p, w.kind.isForcedUse = false := by
            simpa [forcedSafe, hchild, hdp, hne, hf.getSelection_eq, hsv] using hsafe
          exact hdp ▸ hnouse
        · exact ⟨s, (hf.parent_selection_eq hnotify hdp hw).trans hs, List.Subset.refl _⟩
      · change (getSelection t ctx' p).isSome = true at hp
        by_cases hp' : (getSelection t ctx p).isSome = true
        · exact hdue hp' (fun hboth => hd hboth.2) hmono
        · -- a parent that gets its selection now has changed, and is scheduled
          have hdp : d.statement = p := by
            by_contra hne
            exact hp' (hgetp hne ▸ hp)
          cases changed with
          | true => exact Or.inl (mem_scheduleIf.mpr (Or.inr ⟨rfl, hdp.symm⟩))
          | false =>
            obtain ⟨w, hw, hsome⟩ := (getSelection_isSome_iff t ctx' p).mp hp
            exact absurd ((getSelection_isSome_iff t ctx p).mpr
              ⟨w, hw, isSome_of_unchanged hnotify hsome⟩) hp'

end Step

/-! ### Runs -/

variable (db t)

variable {db t} {f p : Fin n} {v : Verb} {pattern : CompositeFilter}

/-- The initial selections leave the forced verb unresolved, with its matches put aside. -/
theorem ForcedState.start (hf : ForcedChild t f p v pattern) {layers : LayerStore n}
    {roots : List RootLayer} {ctx : ExecutionContext n}
    (hroots : computeRoots db t layers roots = .ok ctx) {matched : Selection}
    (hcell : ctx.cell v.id = some matched) : ForcedState t f p v matched (seed t ctx) := by
  refine ⟨consistent_seed t ctx, hcell, Or.inl ?_, fun hp => Or.inl ?_⟩
  · exact (computed_of_computeRoots hroots f).selection_eq_none hf.mem
      (by simp [hf.kind, VerbKind.startsEmpty])
  · exact (List.mem_filter.mpr ⟨List.mem_finRange p, (hasSelection_iff t ctx p).mpr hp⟩)

end Askl
