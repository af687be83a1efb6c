import Askl.Query.Worklist
import Askl.Library.Chaotic

/-!
# The constraints between statements

As long as no selector is given its first selection, a run of the worklist only cuts
selections down: which selectors contribute, which notifications get past their gates
and which edges are recorded stay what they were.  Such a run is a chaotic iteration of
fixed constraints between statements.

## Main definitions

* `Selection.SupportedByParent`, `Selection.SupportedByChild` — the supports, over any set
  of nodes.
* `Constraint`, `constraintSystem` — the constraints the edges of the graph stand for.
* `SameEdges` — two contexts that differ in nodes only.
* `Matches` — a state of the worklist and the state of the iteration it stands for.

## Main results

* `notify_fires` — **one notification is one firing.**
* `matches_step` — a step is a step of the iteration, or changes nothing there.
* `matches_of_run` — so is a run.
-/

namespace Askl

open Relation

/-! ### Supports -/

namespace Selection

/-- The recorded edges of a selection, without its nodes. -/
def edges (s : Selection) : Selection := { s with nodes := [] }

/-- `constrain_by_parent` over a set of parent nodes. -/
def SupportedByParent (parent : Selection) (nodes : Set SelectionNode) (rel : RelationshipType)
    (a : SelectionNode) : Prop :=
  (rel.refs = true ∧ ∃ r ∈ parent.children, r.symbol.id = a.symbol.id ∧
      ∃ b ∈ nodes, b.symbol.id = r.parentSymbol.id) ∨
    rel.has = true ∧ ∃ r ∈ parent.hasChildren, r.childInstance.id = a.symbolInstance.id ∧
      ∃ b ∈ nodes, b.symbolInstance.id = r.parentInstance.id

/-- `constrain_by_child` over a set of child nodes. -/
def SupportedByChild (child : Selection) (nodes : Set SelectionNode) (rel : RelationshipType)
    (a : SelectionNode) : Prop :=
  (rel.refs = true ∧ ∃ r ∈ child.parents, r.fromInstance.symbol = a.symbol.id ∧
      ∃ b ∈ nodes, b.symbol.id = r.toSymbol.id) ∨
    rel.has = true ∧ ∃ r ∈ child.hasParents, r.parentInstance.id = a.symbolInstance.id ∧
      ∃ b ∈ nodes, b.symbolInstance.id = r.childInstance.id

theorem supportedByParent_iff {parent : Selection} {rel : RelationshipType} {a : SelectionNode} :
    parent.supportedByParent rel a = true ↔
      parent.SupportedByParent {b | b ∈ parent.nodes} rel a := by
  simp [supportedByParent, SupportedByParent]

theorem supportedByChild_iff {child : Selection} {rel : RelationshipType} {a : SelectionNode} :
    child.supportedByChild rel a = true ↔ child.SupportedByChild {b | b ∈ child.nodes} rel a := by
  simp [supportedByChild, SupportedByChild]

theorem SupportedByParent.mono {parent : Selection} {nodes nodes' : Set SelectionNode}
    {rel : RelationshipType} {a : SelectionNode} (h : parent.SupportedByParent nodes rel a)
    (hsub : nodes ⊆ nodes') : parent.SupportedByParent nodes' rel a := by
  rcases h with ⟨hrel, r, hr, ha, b, hb, hbr⟩ | ⟨hrel, r, hr, ha, b, hb, hbr⟩
  · exact Or.inl ⟨hrel, r, hr, ha, b, hsub hb, hbr⟩
  · exact Or.inr ⟨hrel, r, hr, ha, b, hsub hb, hbr⟩

theorem SupportedByChild.mono {child : Selection} {nodes nodes' : Set SelectionNode}
    {rel : RelationshipType} {a : SelectionNode} (h : child.SupportedByChild nodes rel a)
    (hsub : nodes ⊆ nodes') : child.SupportedByChild nodes' rel a := by
  rcases h with ⟨hrel, r, hr, ha, b, hb, hbr⟩ | ⟨hrel, r, hr, ha, b, hb, hbr⟩
  · exact Or.inl ⟨hrel, r, hr, ha, b, hsub hb, hbr⟩
  · exact Or.inr ⟨hrel, r, hr, ha, b, hsub hb, hbr⟩

/-- Only the recorded edges of the parent count. -/
theorem supportedByParent_edges {parent parent' : Selection} (h : parent.edges = parent'.edges)
    {nodes : Set SelectionNode} {rel : RelationshipType} {a : SelectionNode} :
    parent.SupportedByParent nodes rel a ↔ parent'.SupportedByParent nodes rel a := by
  obtain ⟨-, -, hc, -, hhc⟩ := Selection.mk.inj h
  simp only [SupportedByParent, hc, hhc]

/-- Only the recorded edges of the child count. -/
theorem supportedByChild_edges {child child' : Selection} (h : child.edges = child'.edges)
    {nodes : Set SelectionNode} {rel : RelationshipType} {a : SelectionNode} :
    child.SupportedByChild nodes rel a ↔ child'.SupportedByChild nodes rel a := by
  obtain ⟨-, hp, -, hhp, -⟩ := Selection.mk.inj h
  simp only [SupportedByChild, hp, hhp]

/-- The union of a list of selections. -/
def mergeAll (l : List Selection) : Selection := l.foldl extend .new

theorem foldl_extend_nodes (l : List Selection) (s : Selection) :
    (l.foldl extend s).nodes = s.nodes ++ l.flatMap (·.nodes) := by
  induction l generalizing s with
  | nil => simp
  | cons a l ih => simp [ih]

theorem foldl_extend_edges (l : List Selection) (s : Selection) :
    (l.foldl extend s).edges = (l.map edges).foldl extend s.edges := by
  induction l generalizing s with
  | nil => rfl
  | cons a l ih => exact ih (s.extend a)

theorem mergeAll_nodes (l : List Selection) : (mergeAll l).nodes = l.flatMap (·.nodes) := by
  simp [mergeAll, foldl_extend_nodes]

/-- The union holds what each of the selections holds. -/
theorem subset_mergeAll {l : List Selection} {s : Selection} (hs : s ∈ l) :
    s.nodes ⊆ (mergeAll l).nodes ∧ s.parents ⊆ (mergeAll l).parents ∧
      s.hasParents ⊆ (mergeAll l).hasParents := by
  have hfold : ∀ (l : List Selection) (acc : Selection),
      (l.foldl extend acc).parents = acc.parents ++ l.flatMap (·.parents) ∧
        (l.foldl extend acc).hasParents = acc.hasParents ++ l.flatMap (·.hasParents) := by
    intro l
    induction l with
    | nil => simp
    | cons a l ih => intro acc; simp [ih]
  refine ⟨?_, ?_, ?_⟩
  · rw [mergeAll_nodes]
    exact fun a ha => List.mem_flatMap.mpr ⟨s, hs, ha⟩
  · rw [mergeAll, (hfold l .new).1]
    exact fun r hr => List.mem_append_right _ (List.mem_flatMap.mpr ⟨s, hs, hr⟩)
  · rw [mergeAll, (hfold l .new).2]
    exact fun r hr => List.mem_append_right _ (List.mem_flatMap.mpr ⟨s, hs, hr⟩)

theorem mergeAll_edges {l l' : List Selection} (h : l.map edges = l'.map edges) :
    (mergeAll l).edges = (mergeAll l').edges := by
  rw [mergeAll, mergeAll, foldl_extend_edges, foldl_extend_edges, h]

end Selection

variable {n : ℕ} {db : Database} (t : StatementTree n)

/-- The merge of a list of children is the union of the selections there are. -/
theorem mergeSelections_eq (ctx : ExecutionContext n) (cs : List (Fin n)) :
    mergeSelections t ctx cs = if cs.filterMap (getSelection t ctx) = [] then none
      else some (Selection.mergeAll (cs.filterMap (getSelection t ctx))) := by
  unfold mergeSelections
  cases cs.filterMap (getSelection t ctx) with
  | nil => rfl
  | cons s l =>
    have hfold : ∀ (l : List Selection) (s : Selection),
        l.foldl (fun acc s => some ((acc.getD .new).extend s)) (some s) =
          some (l.foldl Selection.extend s) := by
      intro l
      induction l with
      | nil => intro s; rfl
      | cons a l ih => intro s; exact ih (s.extend a)
    simp [hfold, Selection.mergeAll]

/-! ### Contexts that differ in nodes -/

/-- Two contexts whose selectors have selections with the same recorded edges. -/
def SameEdges (base ctx : ExecutionContext n) : Prop :=
  ∀ id, (ctx.selection id).map Selection.edges = (base.selection id).map Selection.edges

/-- The nodes of every selector. -/
def valueOf (ctx : ExecutionContext n) (id : SelectorId) : Set SelectionNode :=
  {a | ∃ s, ctx.selection id = some s ∧ a ∈ s.nodes}

variable (base : ExecutionContext n)

/-- The nodes of a statement, over the selectors that contribute. -/
def statementNodes (X : SelectorId → Set SelectionNode) (i : Fin n) : Set SelectionNode :=
  {a | ∃ v ∈ contributing base.selection (t.selectors i), a ∈ X v.id}

/-- The nodes of the children that are merged for a parent. -/
def childrenNodes (X : SelectorId → Set SelectionNode) (p : Fin n) : Set SelectionNode :=
  {a | ∃ c ∈ mergedChildren t p, a ∈ statementNodes t base X c}

section SameEdges

variable {t} {base}

theorem SameEdges.refl (ctx : ExecutionContext n) : SameEdges ctx ctx := fun _ => rfl

variable {ctx : ExecutionContext n} (h : SameEdges base ctx)

include h

theorem SameEdges.isSome (id : SelectorId) :
    (ctx.selection id).isSome = (base.selection id).isSome := by
  have := congrArg Option.isSome (h id)
  simpa using this

theorem SameEdges.contributing (i : Fin n) :
    contributing ctx.selection (t.selectors i) = contributing base.selection (t.selectors i) :=
  contributing_congr fun v _ => h.isSome v.id

theorem SameEdges.getSelection_edges (i : Fin n) :
    (getSelection t ctx i).map Selection.edges = (getSelection t base i).map Selection.edges := by
  unfold getSelection
  induction t.selectors i using List.reverseRecOn with
  | nil => rfl
  | append_singleton vs v ih =>
    rw [gather_concat, gather_concat, gatherStep, gatherStep]
    have hv := h v.id
    cases hc : ctx.selection v.id with
    | none =>
      rw [hc] at hv
      rw [Option.map_none, eq_comm, Option.map_eq_none_iff] at hv
      rw [hv]
    | some s =>
      rw [hc, Option.map_some, eq_comm, Option.map_eq_some_iff] at hv
      obtain ⟨s', hs', hedges⟩ := hv
      rw [hs']
      cases hg : gather ctx.selection vs with
      | none =>
        rw [hg, Option.map_none, eq_comm, Option.map_eq_none_iff] at ih
        simp [ih, hedges]
      | some a =>
        rw [hg, Option.map_some, eq_comm, Option.map_eq_some_iff] at ih
        obtain ⟨a', ha', hae⟩ := ih
        rw [ha']
        have : (a'.extend s').edges = a'.edges.extend s'.edges := rfl
        simp only [Option.map_some, this, hae, hedges]
        rfl

theorem SameEdges.getSelection_isSome (i : Fin n) :
    (getSelection t ctx i).isSome = (getSelection t base i).isSome := by
  have := congrArg Option.isSome (h.getSelection_edges (t := t) i)
  simpa using this

theorem SameEdges.isSelectionSome (i : Fin n) :
    isSelectionSome t ctx i = isSelectionSome t base i := by
  unfold Askl.isSelectionSome
  congr 1
  exact Bool.eq_iff_iff.mpr (by simp only [List.any_eq_true, h.isSome])

/-- A statement's nodes are those of its contributing selectors. -/
theorem SameEdges.mem_getSelection {i : Fin n} {s : Selection}
    (hs : getSelection t ctx i = some s) {a : SelectionNode} :
    a ∈ s.nodes ↔ a ∈ statementNodes t base (valueOf ctx) i := by
  rw [gather_nodes hs, h.contributing i]
  simp only [nodesOf, List.mem_flatMap, statementNodes, valueOf, Set.mem_ofPred_eq]
  refine exists_congr fun v => and_congr_right fun _ => ?_
  cases ctx.selection v.id <;> simp

theorem SameEdges.filterMap_edges (cs : List (Fin n)) :
    (cs.filterMap (getSelection t ctx)).map Selection.edges =
      (cs.filterMap (getSelection t base)).map Selection.edges := by
  rw [List.map_filterMap, List.map_filterMap]
  exact List.filterMap_congr fun c _ => h.getSelection_edges c

theorem SameEdges.mergeSelections_edges (cs : List (Fin n)) :
    (mergeSelections t ctx cs).map Selection.edges =
      (mergeSelections t base cs).map Selection.edges := by
  have hfm := h.filterMap_edges (t := t) cs
  rw [mergeSelections_eq, mergeSelections_eq]
  by_cases hnil : cs.filterMap (getSelection t ctx) = []
  · rw [hnil, List.map_nil, eq_comm, List.map_eq_nil_iff] at hfm
    rw [if_pos hnil, if_pos hfm]
  · have hnil' : cs.filterMap (getSelection t base) ≠ [] := by
      intro h'
      rw [h', List.map_nil, List.map_eq_nil_iff] at hfm
      exact hnil hfm
    rw [if_neg hnil, if_neg hnil', Option.map_some, Option.map_some,
      Selection.mergeAll_edges hfm]

theorem SameEdges.constrainsParent (p : Fin n) :
    constrainsParent t ctx p = constrainsParent t base p := by
  unfold Askl.constrainsParent
  have := congrArg Option.isSome (h.mergeSelections_edges (t := t) (mergedChildren t p))
  rw [Option.isSome_map, Option.isSome_map] at this
  rw [this]
  congr 1
  exact Bool.eq_iff_iff.mpr (by simp only [List.all_eq_true, h.isSelectionSome])

/-- The merged nodes are those of the merged children. -/
theorem SameEdges.mem_mergeSelections {p : Fin n} {m : Selection}
    (hm : mergeSelections t ctx (mergedChildren t p) = some m) {a : SelectionNode} :
    a ∈ m.nodes ↔ a ∈ childrenNodes t base (valueOf ctx) p := by
  rw [mergeSelections_eq] at hm
  split at hm
  · cases hm
  · obtain rfl := Option.some.inj hm
    rw [Selection.mergeAll_nodes]
    simp only [List.mem_flatMap, List.mem_filterMap, childrenNodes, Set.mem_ofPred_eq]
    constructor
    · rintro ⟨s, ⟨c, hc, hs⟩, ha⟩
      exact ⟨c, hc, (h.mem_getSelection hs).mp ha⟩
    · rintro ⟨c, hc, ha⟩
      have hsome : (getSelection t ctx c).isSome = true := by
        rw [h.getSelection_isSome]
        exact gather_isSome_of_mem_contributing ha.choose_spec.1
      obtain ⟨s, hs⟩ := Option.isSome_iff_exists.mp hsome
      exact ⟨s, ⟨c, hc, hs⟩, (h.mem_getSelection hs).mpr ha⟩

end SameEdges

/-! ### The system -/

/-- The relationships a statement's children follow. -/
def StatementTree.childrenRelationship (p : Fin n) : RelationshipType :=
  ((t.children p).head?.map t.relationshipType).getD ⟨false, false⟩

theorem StatementTree.childrenRelationship_eq {i p : Fin n} (h : t.parent i = some p) :
    t.childrenRelationship p = t.relationshipType i := by
  have hi := t.mem_children.mpr h
  unfold StatementTree.childrenRelationship
  cases hc : t.children p with
  | nil => simp [hc] at hi
  | cons c cs =>
    have hcp : t.parent c = some p := t.mem_children.mp (by simp [hc])
    simpa using t.siblings_relationshipType hcp h

/-- A constraint a notification stands for: of a parent by its children, of a child by its
parent, or of a user of a label by a statement that carries it. -/
inductive Constraint (n : ℕ) where
  | fromChildren (p : Fin n)
  | fromParent (c : Fin n)
  | fromProvider (i c : Fin n)

namespace Constraint

/-- The statement a constraint cuts down. -/
def target : Constraint n → Fin n
  | fromChildren p => p
  | fromParent c => c
  | fromProvider _ c => c

/-- The selectors a constraint cuts down: a parent is constrained past its gates, a weak
parent constrains plain uses only, and a provider the uses of its labels. -/
def hits (k : Constraint n) (v : Verb) : Prop :=
  match k with
  | fromChildren p => constrainsParent t base p = true
  | fromParent c => v.kind.asUse = none → ∀ p, t.parent c = some p → t.weak p = false
  | fromProvider i _ => ∃ l, v.kind.useLabel = some l ∧ l ∈ (t.command i).labels

/-- The constraints an edge of the graph stands for. -/
def ofEdge (i : Fin n) (d : StatementDependent n) : List (Constraint n) :=
  match d.role with
  | .parent => [fromChildren d.statement]
  | .child => [fromParent d.statement]
  | .user => [fromProvider i d.statement]
  | _ => []

/-- The constraints a statement fires when it is popped. -/
def ofStatement (i : Fin n) : List (Constraint n) :=
  if (getSelection t base i).isSome then (t.dependents i).flatMap (ofEdge i) else []

/-- What a constraint admits, given the nodes of every selector.  A provider that never
notifies constrains nothing. -/
def support (k : Constraint n) (X : SelectorId → Set SelectionNode) : Set SelectionNode :=
  match k with
  | fromChildren p => {a | ∀ m, mergeSelections t base (mergedChildren t p) = some m →
      m.SupportedByChild (childrenNodes t base X p) (t.childrenRelationship p) a}
  | fromParent c => {a | ∀ p s, t.parent c = some p → getSelection t base p = some s →
      s.SupportedByParent (statementNodes t base X p) (t.relationshipType c) a}
  | fromProvider i c => {a | fromProvider i c ∈ ofStatement t base i →
      ∃ b ∈ statementNodes t base X i, b.symbolInstance.id = a.symbolInstance.id}

theorem mem_ofStatement {i : Fin n} {k : Constraint n} :
    k ∈ ofStatement t base i ↔ (getSelection t base i).isSome = true ∧
      ∃ d ∈ t.dependents i, k ∈ ofEdge i d := by
  unfold ofStatement
  split
  · next h => simp [h]
  · next h => simp [h]

/-- Every statement whose nodes a constraint reads fires it. -/
theorem mem_ofStatement_fromChildren {c p : Fin n} (hc : t.parent c = some p)
    (hsel : (getSelection t base c).isSome = true) :
    fromChildren p ∈ ofStatement t base c := by
  refine (mem_ofStatement t base).mpr ⟨hsel, ⟨p, .parent, none⟩, ?_, by simp [ofEdge]⟩
  exact (t.mem_dependents_parent rfl).mpr ⟨hc, rfl⟩

theorem mem_ofStatement_fromParent {c p : Fin n} (hc : t.parent c = some p)
    (hsel : (getSelection t base p).isSome = true) :
    fromParent c ∈ ofStatement t base p := by
  refine (mem_ofStatement t base).mpr ⟨hsel, ⟨c, .child, none⟩, ?_, by simp [ofEdge]⟩
  exact (t.mem_dependents_child rfl).mpr ⟨hc, rfl⟩

end Constraint

theorem statementNodes_mono {X Y : SelectorId → Set SelectionNode} (h : X ≤ Y) (i : Fin n) :
    statementNodes t base X i ⊆ statementNodes t base Y i := by
  rintro a ⟨v, hv, ha⟩
  exact ⟨v, hv, h v.id ha⟩

theorem childrenNodes_mono {X Y : SelectorId → Set SelectionNode} (h : X ≤ Y) (p : Fin n) :
    childrenNodes t base X p ⊆ childrenNodes t base Y p := by
  rintro a ⟨c, hc, ha⟩
  exact ⟨c, hc, statementNodes_mono t base h c ha⟩

/-- What two families share on a statement's resolved selectors, they share on its
nodes. -/
theorem statementNodes_congr {X Y : SelectorId → Set SelectionNode} {i : Fin n}
    (h : ∀ v ∈ t.selectors i, (base.selection v.id).isSome = true → X v.id = Y v.id) :
    statementNodes t base X i = statementNodes t base Y i := by
  ext a
  refine exists_congr fun v => and_congr_right fun hv => ?_
  rw [h v (contributing_subset _ hv) (isSome_of_mem_contributing hv)]

/-- The constraints between the statements of a graph that was built, over the selectors
that have a selection, none of which is shared. -/
def constraintSystem {deps : Fin n → List (StatementDependent n)}
    (hgraph : t.buildDependencyGraph = .ok deps)
    (hshared : ∀ i j, ∀ u ∈ t.selectors i, ∀ v ∈ t.selectors j, u.id = v.id →
      (base.selection u.id).isSome = true → i = j) :
    Chaotic.System (Fin n) SelectorId (Constraint n) SelectionNode where
  cells i := {id | ∃ v ∈ t.selectors i, v.id = id ∧ (base.selection id).isSome = true}
  constraints := Constraint.ofStatement t base
  target := Constraint.target
  targetCells k := {id | ∃ v ∈ t.selectors k.target, v.id = id ∧
    (base.selection id).isSome = true ∧ k.hits t base v}
  support := Constraint.support t base
  targetCells_subset := by
    rintro k id ⟨v, hv, hid, hsome, -⟩
    exact ⟨v, hv, hid, hsome⟩
  cells_unique := by
    rintro id i j ⟨u, hu, rfl, hsome⟩ ⟨v, hv, hid, -⟩
    exact hshared i j u hu v hv hid.symm hsome
  target_ne := by
    intro i k hk
    obtain ⟨-, d, hd, hkd⟩ := (Constraint.mem_ofStatement t base).mp hk
    have hne : d.role.isPreSeed = false → d.statement ≠ i :=
      t.statement_ne_of_mem_dependents hgraph hd
    unfold Constraint.ofEdge at hkd
    split at hkd <;> simp_all [Constraint.target, DependencyRole.isPreSeed]
  support_mono := by
    intro k X Y hXY
    cases k with
    | fromChildren p => exact fun a ha m hm => (ha m hm).mono (childrenNodes_mono t base hXY p)
    | fromParent c =>
      exact fun a ha p s hp hs => (ha p s hp hs).mono (statementNodes_mono t base hXY p)
    | fromProvider i c =>
      intro a ha hk
      obtain ⟨b, hb, hba⟩ := ha hk
      exact ⟨b, statementNodes_mono t base hXY i hb, hba⟩
  support_congr := by
    intro k X Y hXY
    have hstmt : ∀ i, ((getSelection t base i).isSome = true → k ∈ Constraint.ofStatement t base i) →
        statementNodes t base X i = statementNodes t base Y i := by
      intro i hi
      by_cases hsel : (getSelection t base i).isSome = true
      · exact statementNodes_congr t base fun v hv hsome => hXY i (hi hsel) v.id ⟨v, hv, rfl, hsome⟩
      · -- a statement without a selection has no contributing selector
        have hnone : ∀ v, v ∉ contributing base.selection (t.selectors i) :=
          fun v hv => hsel (gather_isSome_of_mem_contributing hv)
        ext a
        simp [statementNodes, hnone]
    cases k with
    | fromChildren p =>
      have hch : childrenNodes t base X p = childrenNodes t base Y p := by
        ext a
        refine exists_congr fun c => and_congr_right fun hc => ?_
        have hcp : t.parent c = some p := t.mem_children.mp (List.mem_filter.mp hc).1
        rw [hstmt c fun hsel => Constraint.mem_ofStatement_fromChildren t base hcp hsel]
      simp only [Constraint.support, hch]
    | fromParent c =>
      ext a
      refine forall_congr' fun p => forall_congr' fun s => imp_congr_right fun hp =>
        imp_congr_right fun hs => ?_
      rw [hstmt p fun hsel => Constraint.mem_ofStatement_fromParent t base hp hsel]
    | fromProvider i c =>
      ext a
      refine imp_congr_right fun hk => ?_
      rw [hstmt i fun _ => hk]

/-! ### One notification -/

/-- What a turn does to its selector when it derives nothing: it keeps the nodes that
satisfy `p`, or everything where the constraint misses it. -/
structure Cut (hit : Prop) (p : SelectionNode → Bool) (changed : Bool)
    (before after : Option Selection) : Prop where
  unresolved : before = none → changed = true → after.isSome = true
  cut : hit → ∀ s, before = some s → after = some (s.retain p) ∧
    (changed = true ↔ ∃ a ∈ s.nodes, p a = false)
  keep : ¬hit → ∀ s, before = some s → after = some s ∧ changed = false

/-- A notification that fires a constraint: it changes nodes only, cuts them down to what
the constraint admits, and reports whether that removed any. -/
structure Fired (S : Chaotic.System (Fin n) SelectorId (Constraint n) SelectionNode)
    (k : Constraint n) (changed : Bool) (ctx ctx' : ExecutionContext n) : Prop where
  edges : SameEdges base ctx'
  value : valueOf ctx' = S.restrict (valueOf ctx) k
  changed_iff : changed = true ↔ S.restrict (valueOf ctx) k ≠ valueOf ctx

/-- A state of the worklist stands for a state of the iteration: its nodes, the statements
waiting, and the constraints its notifications under way still fire. -/
structure Matches (st : WorkState n)
    (c : Chaotic.System.Config (Fin n) SelectorId (Constraint n) SelectionNode) : Prop where
  edges : SameEdges base st.ctx
  value : c.value = valueOf st.ctx
  pending : c.pending = {i | i ∈ st.worklist}
  queue : c.queue = st.queue.flatMap fun e => Constraint.ofEdge e.1 e.2
  consistent : st.Consistent t
  notifiers : ∀ e ∈ st.queue, (getSelection t base e.1).isSome = true

/-- A constraint reports the loss of a node. -/
theorem constrainChanged_iff {dependency : Selection} {role : DependencyRole}
    {rel : RelationshipType} {s : Selection} : constrainChanged dependency role rel s = true ↔
      ∃ a ∈ s.nodes, supported dependency role rel a = false := by
  rw [constrainChanged, bne_iff_ne, ne_eq, eq_comm]
  change ¬(s.nodes.filter _).length = _ ↔ _
  rw [List.length_filter_eq_length_iff]
  simp

section Fires

variable {t} {base} {deps : Fin n → List (StatementDependent n)}
  (hgraph : t.buildDependencyGraph = .ok deps)
  (hshared : ∀ i j, ∀ u ∈ t.selectors i, ∀ v ∈ t.selectors j, u.id = v.id →
    (base.selection u.id).isSome = true → i = j)
  {ctx ctx' : ExecutionContext n}

/-- Turns that cut the selectors of a constraint's target down by what the constraint admits,
and touch no others. -/
structure CutsTarget (t : StatementTree n) (base : ExecutionContext n) (k : Constraint n)
    (p : SelectionNode → Bool) (each : SelectorId → Bool) (ctx ctx' : ExecutionContext n) :
    Prop where
  admits : ∀ a, p a = true ↔ a ∈ k.support t base (valueOf ctx)
  first : ∀ v ∈ t.selectors k.target, (ctx'.selection v.id).isSome = true →
    (ctx.selection v.id).isSome = true
  other : ∀ id, (∀ v ∈ t.selectors k.target, v.id ≠ id) → ctx'.selection id = ctx.selection id
  cut : ∀ v ∈ t.selectors k.target,
    Cut (k.hits t base v) p (each v.id) (ctx.selection v.id) (ctx'.selection v.id)

namespace CutsTarget

variable {k : Constraint n} {p : SelectionNode → Bool} {each : SelectorId → Bool}
  (h : CutsTarget t base k p each ctx ctx')

include h

/-- A selector without a selection gets none. -/
theorem eq_none {v : Verb} (hv : v ∈ t.selectors k.target) (hs : ctx.selection v.id = none) :
    ctx'.selection v.id = none := by
  by_contra hne
  have hsome := h.first v hv (Option.isSome_iff_ne_none.mpr hne)
  rw [hs] at hsome
  cases hsome

/-- Only nodes are dropped. -/
theorem sameEdges (hedges : SameEdges base ctx) : SameEdges base ctx' := by
  intro id
  rw [← hedges id]
  by_cases hmem : ∃ v ∈ t.selectors k.target, v.id = id
  · obtain ⟨v, hv, rfl⟩ := hmem
    cases hs : ctx.selection v.id with
    | none => rw [h.eq_none hv hs]
    | some s =>
      by_cases hhit : k.hits t base v
      · rw [((h.cut v hv).cut hhit s hs).1]
        rfl
      · rw [((h.cut v hv).keep hhit s hs).1]
  · rw [h.other id fun v hv hid => hmem ⟨v, hv, hid⟩]

omit h in
/-- The cells a constraint cuts are those of the selectors it hits. -/
theorem mem_targetCells_iff (hedges : SameEdges base ctx) {v : Verb}
    (hv : v ∈ t.selectors k.target) {s : Selection} (hs : ctx.selection v.id = some s) :
    v.id ∈ (constraintSystem t base hgraph hshared).targetCells k ↔ k.hits t base v := by
  constructor
  · rintro ⟨w, hw, hid, -, hhit⟩
    exact t.id_inj hw hv hid ▸ hhit
  · exact fun hhit => ⟨v, hv, rfl, by rw [← hedges.isSome, hs]; rfl, hhit⟩

/-- The nodes left are those the constraint admits. -/
theorem value_eq (hedges : SameEdges base ctx) : valueOf ctx' =
    (constraintSystem t base hgraph hshared).restrict (valueOf ctx) k := by
  funext id
  by_cases hmem : ∃ v ∈ t.selectors k.target, v.id = id
  · obtain ⟨v, hv, rfl⟩ := hmem
    cases hs : ctx.selection v.id with
    | none =>
      ext a
      simp [valueOf, hs, h.eq_none hv hs, Chaotic.System.restrict]
    | some s =>
      have hcell := mem_targetCells_iff hgraph hshared hedges hv hs
      ext a
      by_cases hhit : k.hits t base v
      · have hafter := ((h.cut v hv).cut hhit s hs).1
        have hin := hcell.mpr hhit
        have hsupp : (constraintSystem t base hgraph hshared).support k = k.support t base := rfl
        simp [valueOf, hs, hafter, Chaotic.System.restrict, hin, h.admits, hsupp]
      · have hafter := ((h.cut v hv).keep hhit s hs).1
        have hout := hcell.not.mpr hhit
        simp [valueOf, hs, hafter, Chaotic.System.restrict, hout]
  · have hout : id ∉ (constraintSystem t base hgraph hshared).targetCells k := by
      rintro ⟨v, hv, hid, -⟩
      exact hmem ⟨v, hv, hid⟩
    ext a
    simp [valueOf, h.other id fun v hv hid => hmem ⟨v, hv, hid⟩, Chaotic.System.restrict, hout]

/-- A turn reports a change exactly when the constraint takes a node away. -/
theorem any_each_iff (hedges : SameEdges base ctx) :
    ((t.selectors k.target).any fun v => each v.id) = true ↔
      (constraintSystem t base hgraph hshared).restrict (valueOf ctx) k ≠ valueOf ctx := by
  rw [List.any_eq_true]
  constructor
  · rintro ⟨v, hv, hch⟩ heq
    cases hs : ctx.selection v.id with
    | none =>
      have hsome := (h.cut v hv).unresolved hs hch
      rw [h.eq_none hv hs] at hsome
      cases hsome
    | some s =>
      by_cases hhit : k.hits t base v
      · obtain ⟨a, ha, hpa⟩ := ((h.cut v hv).cut hhit s hs).2.mp hch
        have hmem : a ∈ valueOf ctx v.id := ⟨s, hs, ha⟩
        rw [← heq] at hmem
        have hadmitted := (h.admits a).mpr
          (hmem.2 ((mem_targetCells_iff hgraph hshared hedges hv hs).mpr hhit))
        rw [hpa] at hadmitted
        cases hadmitted
      · rw [((h.cut v hv).keep hhit s hs).2] at hch
        cases hch
  · intro hne
    obtain ⟨id, hid⟩ := Function.ne_iff.mp hne
    obtain ⟨v, hv, rfl, -, hhit⟩ := (constraintSystem t base hgraph
      hshared).mem_targetCells_of_restrict_ne hid
    have hex : ∃ a, a ∈ valueOf ctx v.id ∧ a ∉ k.support t base (valueOf ctx) := by
      by_contra hall
      push Not at hall
      exact hid (Set.Subset.antisymm ((constraintSystem t base hgraph hshared).restrict_le _ _ _)
        fun a ha => ⟨ha, fun _ => hall a ha⟩)
    obtain ⟨a, ⟨s, hs, ha⟩, hnot⟩ := hex
    refine ⟨v, hv, ((h.cut v hv).cut hhit s hs).2.mpr ⟨a, ha, ?_⟩⟩
    rw [← Bool.not_eq_true]
    exact fun hpa => hnot ((h.admits a).mp hpa)

/-- Such turns fire the constraint. -/
theorem fired (hedges : SameEdges base ctx) {changed : Bool}
    (hchanged : changed = (t.selectors k.target).any fun v => each v.id) :
    Fired base (constraintSystem t base hgraph hshared) k changed ctx ctx' where
  edges := h.sameEdges hedges
  value := h.value_eq hgraph hshared hedges
  changed_iff := hchanged ▸ h.any_each_iff hgraph hshared hedges

end CutsTarget

/-- A parent that is notified by a child is cut down by the union of its children. -/
theorem fired_fromChildren (hedges : SameEdges base ctx) {i p : Fin n}
    (hparent : t.parent i = some p) {changed : Bool}
    (hnotify : notifyFromSelection db t ctx i p = .ok (changed, ctx'))
    (hfirst : ∀ v ∈ t.selectors p, (ctx'.selection v.id).isSome = true →
      (ctx.selection v.id).isSome = true) :
    Fired base (constraintSystem t base hgraph hshared) (.fromChildren p) changed ctx ctx' := by
  have hgate := hedges.constrainsParent (t := t) p
  have hrel := t.childrenRelationship_eq hparent
  unfold notifyFromSelection at hnotify
  cases hc : constrainsParent t ctx p with
  | false =>
    obtain ⟨rfl, rfl⟩ : changed = false ∧ ctx' = ctx := by
      unfold Askl.constrainsParent at hc
      cases hall : (t.children p).all (isSelectionSome t ctx) with
      | false => simpa [hall, eq_comm] using hnotify
      | true =>
        cases hm : mergeSelections t ctx (mergedChildren t p) with
        | none => simpa [hall, hm, eq_comm] using hnotify
        | some m => simp [hall, hm] at hc
    have hout : ∀ v, ¬(Constraint.fromChildren p).hits t base v := by
      intro v hv
      exact absurd (hgate.trans hv) (by simp [hc])
    classical
    let admitted (a : SelectionNode) : Bool :=
      decide (a ∈ (Constraint.fromChildren p).support t base (valueOf ctx'))
    have hcuts : CutsTarget t base (.fromChildren p) admitted (fun _ => false) ctx' ctx' := by
      refine ⟨fun a => by simp [admitted], hfirst, fun _ _ => rfl, fun v _ => ?_⟩
      exact ⟨by simp, fun h => absurd h (hout v), fun _ s hs => ⟨hs, rfl⟩⟩
    exact hcuts.fired hgraph hshared hedges (by simp)
  | true =>
    have hhit : ∀ v, (Constraint.fromChildren p).hits t base v := fun v => hgate.symm.trans hc
    obtain ⟨hall, hsome⟩ := Bool.and_eq_true_iff.mp hc
    obtain ⟨m, hm⟩ := Option.isSome_iff_exists.mp hsome
    simp only [hall, hm, Bool.not_true, Bool.false_eq_true, if_false] at hnotify
    obtain ⟨hother, each, hchanged, heach⟩ := runSelectors_pointwise (I := fun _ => True)
      (T := fun v b before after => Cut ((Constraint.fromChildren p).hits t base v)
        (supported m .parent (t.relationshipType i)) b before after)
      (fun v _ b c c' _ h => by
        have hturn := mergeSelector_turn db t h
        refine ⟨trivial, fun id hid => hturn.sameExcept.selection id hid, ?_⟩
        cases hturn with
        | @constrained s ws hsel =>
          rw [hsel]
          refine ⟨by simp, fun _ s' hs' => ?_, fun hout => absurd (hhit v) hout⟩
          obtain rfl := Option.some.inj hs'
          exact ⟨ExecutionContext.selection_setSelection_self _ _ _, constrainChanged_iff⟩
        | derived hsel _ =>
          rw [hsel]
          exact ⟨by simp, by simp, by simp⟩)
      (t.id_nodup p) trivial hnotify
    refine CutsTarget.fired (k := .fromChildren p) hgraph hshared
      ⟨fun a => ?_, hfirst, hother, heach⟩ hedges hchanged
    -- the union supports what the children's nodes support along the recorded edges
    have hset : {b | b ∈ m.nodes} = childrenNodes t base (valueOf ctx) p :=
      Set.ext fun b => hedges.mem_mergeSelections hm
    have hbase := hedges.mergeSelections_edges (t := t) (mergedChildren t p)
    rw [hm, Option.map_some, eq_comm, Option.map_eq_some_iff] at hbase
    obtain ⟨m₀, hm₀, hme⟩ := hbase
    rw [supported, Selection.supportedByChild_iff, hset, ← hrel]
    simp only [Constraint.support, hm₀, Option.some.injEq, forall_eq', Set.mem_ofPred_eq]
    exact Selection.supportedByChild_edges hme.symm

/-- What a turn under a child or user notification does when it derives nothing. -/
private theorem cut_of_acceptTurn {nt : Notification n} {v : Verb} {c c' : ExecutionContext n}
    {b : Bool} {hit : Prop} (hforced : v.kind.isForcedUse = false)
    (hget : (getSelection t c nt.notifier).isSome = true)
    (hhit : hit ↔ nt.addresses t v = true ∧ (v.kind.asUse = none → t.weak nt.notifier = false))
    (hturn : AcceptTurn db t nt v c b c') :
    Cut hit (supported nt.dependency nt.role nt.rel) b (c.selection v.id)
      (c'.selection v.id) := by
  cases hturn with
  | unaddressed haddr =>
    refine ⟨by simp, fun h => ?_, fun _ s hs => ⟨hs, rfl⟩⟩
    simp [haddr] at hhit
    exact absurd h hhit
  | skipped huse hweak _ =>
    refine ⟨by simp, fun h => ?_, fun _ s hs => ⟨hs, rfl⟩⟩
    simp [(hhit.mp h).2 huse] at hweak
  | @constrained s ws haddr hsel hweak _ =>
    rw [hsel]
    refine ⟨by simp, fun _ s' hs' => ?_, fun hout => absurd (hhit.mpr ⟨haddr, hweak⟩) hout⟩
    obtain rfl := Option.some.inj hs'
    exact ⟨ExecutionContext.selection_setSelection_self _ _ _, constrainChanged_iff⟩
  | provided _ hsel _ =>
    obtain ⟨provider, hp⟩ := Option.isSome_iff_exists.mp hget
    rw [hsel]
    exact ⟨fun _ _ => by simp [deriveFromProvider, hp, hforced], by simp, by simp⟩
  | derived _ hsel hderive =>
    rw [hsel.resolve_right (by simp [hforced])]
    refine ⟨fun _ _ => ?_, by simp, by simp⟩
    rw [ExecutionContext.selection_setSelection_self]
    exact deriveFromParent_isSome hderive hget

/-- A child or a user that is notified is cut down by the notifier. -/
private theorem fired_accept (hforced : ∀ i, ∀ v ∈ t.selectors i, v.kind.isForcedUse = false)
    (hedges : SameEdges base ctx) {i j : Fin n} (isUser : Bool) {k : Constraint n}
    (hk : k.target = j) {dependency : Selection} (hget : getSelection t ctx i = some dependency)
    {changed : Bool} (hnotify : acceptNotification db t ctx i j isUser = .ok (changed, ctx'))
    (hfirst : ∀ v ∈ t.selectors j, (ctx'.selection v.id).isSome = true →
      (ctx.selection v.id).isSome = true)
    (hhit : ∀ v ∈ t.selectors j, k.hits t base v ↔
      (notification t ctx i j isUser dependency).addresses t v = true ∧
        (v.kind.asUse = none → t.weak i = false))
    (hsupport : ∀ a, supported dependency (notification t ctx i j isUser dependency).role
      (notification t ctx i j isUser dependency).rel a = true ↔
        a ∈ k.support t base (valueOf ctx)) :
    Fired base (constraintSystem t base hgraph hshared) k changed ctx ctx' := by
  subst hk
  simp only [acceptNotification, hget] at hnotify
  obtain ⟨hother, each, hchanged, heach⟩ := runSelectors_pointwise
    (I := fun c => (getSelection t c i).isSome = true)
    (T := fun v b before after => Cut (k.hits t base v) (supported dependency
      (notification t ctx i k.target isUser dependency).role
      (notification t ctx i k.target isUser dependency).rel) b before after)
    (fun v hv b c c' hI h => by
      have hturn := acceptSelector_turn db t h
      exact ⟨hturn.getSelection_isSome hI, fun id hid => hturn.sameExcept.selection id hid,
        cut_of_acceptTurn (hforced _ v hv) hI (hhit v hv) hturn⟩)
    (t.id_nodup k.target) (by simp [hget]) hnotify
  exact CutsTarget.fired hgraph hshared ⟨hsupport, hfirst, hother, heach⟩ hedges hchanged

/-- A child that is notified is cut down by its parent. -/
theorem fired_fromParent (hforced : ∀ i, ∀ v ∈ t.selectors i, v.kind.isForcedUse = false)
    (hedges : SameEdges base ctx) {i c : Fin n} (hparent : t.parent c = some i)
    {dependency : Selection} (hget : getSelection t ctx i = some dependency) {changed : Bool}
    (hnotify : acceptNotification db t ctx i c false = .ok (changed, ctx'))
    (hfirst : ∀ v ∈ t.selectors c, (ctx'.selection v.id).isSome = true →
      (ctx.selection v.id).isSome = true) :
    Fired base (constraintSystem t base hgraph hshared) (.fromParent c) changed ctx ctx' := by
  refine fired_accept hgraph hshared hforced hedges false rfl hget hnotify hfirst
    (fun v _ => ?_) fun a => ?_
  · simp [Constraint.hits, Notification.addresses, notification, hparent]
  · have hset : {b | b ∈ dependency.nodes} = statementNodes t base (valueOf ctx) i :=
      Set.ext fun b => hedges.mem_getSelection hget
    have hbase := hedges.getSelection_edges (t := t) i
    rw [hget, Option.map_some, eq_comm, Option.map_eq_some_iff] at hbase
    obtain ⟨s₀, hs₀, hse⟩ := hbase
    have hsupport : a ∈ (Constraint.fromParent c).support t base (valueOf ctx) ↔
        s₀.SupportedByParent (statementNodes t base (valueOf ctx) i) (t.relationshipType c) a := by
      simp only [Constraint.support, hparent, Option.some.injEq, Set.mem_ofPred_eq]
      exact ⟨fun h => h i s₀ rfl hs₀, fun h p s hp hs => by
        subst hp
        exact Option.some.inj (hs₀.symm.trans hs) ▸ h⟩
    rw [hsupport]
    simp only [notification, Notification.role, Bool.false_eq_true, if_false, supported]
    rw [Selection.supportedByParent_iff, hset]
    exact Selection.supportedByParent_edges hse.symm

/-- A user of a label is cut down by the statement that carries it. -/
theorem fired_fromProvider (hforced : ∀ i, ∀ v ∈ t.selectors i, v.kind.isForcedUse = false)
    (hedges : SameEdges base ctx) {i c : Fin n}
    (hmem : Constraint.fromProvider i c ∈ Constraint.ofStatement t base i)
    {dependency : Selection} (hget : getSelection t ctx i = some dependency) {changed : Bool}
    (hnotify : acceptNotification db t ctx i c true = .ok (changed, ctx'))
    (hfirst : ∀ v ∈ t.selectors c, (ctx'.selection v.id).isSome = true →
      (ctx.selection v.id).isSome = true) :
    Fired base (constraintSystem t base hgraph hshared) (.fromProvider i c) changed ctx ctx' := by
  refine fired_accept hgraph hshared hforced hedges true rfl hget hnotify hfirst
    (fun v _ => ?_) fun a => ?_
  · cases huse : v.kind.asUse with
    | none => simp [Constraint.hits, Notification.addresses, notification, VerbKind.useLabel, huse]
    | some u =>
      simp [Constraint.hits, Notification.addresses, notification, VerbKind.useLabel, huse]
  · have hnodes := fun b => hedges.mem_getSelection hget (a := b)
    simp [notification, Notification.role, supported, Selection.supportedByOwner,
      Constraint.support, hmem, hnodes]

/-- **One notification is one firing**, as long as it gives no selector its first
selection; the edges that only order the initial selections fire nothing. -/
theorem notify_fires (hforced : ∀ i, ∀ v ∈ t.selectors i, v.kind.isForcedUse = false)
    (hedges : SameEdges base ctx) {i : Fin n} {d : StatementDependent n}
    (hd : d ∈ t.dependents i) (hsel : (getSelection t base i).isSome = true) {changed : Bool}
    (hnotify : notify db t ctx i d = .ok (changed, ctx'))
    (hfirst : ∀ v ∈ t.selectors d.statement, (ctx'.selection v.id).isSome = true →
      (ctx.selection v.id).isSome = true) :
    (Constraint.ofEdge i d = [] ∧ changed = false ∧ ctx' = ctx) ∨
      ∃ k, Constraint.ofEdge i d = [k] ∧ k.target = d.statement ∧
        Fired base (constraintSystem t base hgraph hshared) k changed ctx ctx' := by
  obtain ⟨dependency, hget⟩ := Option.isSome_iff_exists.mp
    ((hedges.getSelection_isSome (t := t) i).trans hsel)
  cases hrole : d.role with
  | parent =>
    simp only [notify, hrole] at hnotify
    exact Or.inr ⟨.fromChildren d.statement, by simp [Constraint.ofEdge, hrole], rfl,
      fired_fromChildren hgraph hshared hedges ((t.mem_dependents_parent hrole).mp hd).1
        hnotify hfirst⟩
  | child =>
    simp only [notify, hrole] at hnotify
    exact Or.inr ⟨.fromParent d.statement, by simp [Constraint.ofEdge, hrole], rfl,
      fired_fromParent hgraph hshared hforced hedges ((t.mem_dependents_child hrole).mp hd).1
        hget hnotify hfirst⟩
  | user =>
    simp only [notify, hrole] at hnotify
    have hmem : Constraint.fromProvider i d.statement ∈ Constraint.ofStatement t base i :=
      (Constraint.mem_ofStatement t base).mpr ⟨hsel, d, hd, by simp [Constraint.ofEdge, hrole]⟩
    exact Or.inr ⟨.fromProvider i d.statement, by simp [Constraint.ofEdge, hrole], rfl,
      fired_fromProvider hgraph hshared hforced hedges hmem hget hnotify hfirst⟩
  | preSeedSibling =>
    obtain ⟨rfl, rfl⟩ : changed = false ∧ ctx' = ctx := by
      simpa [notify, hrole, eq_comm] using hnotify
    exact Or.inl ⟨by simp [Constraint.ofEdge, hrole], rfl, rfl⟩
  | preSeedLabel l =>
    obtain ⟨rfl, rfl⟩ : changed = false ∧ ctx' = ctx := by
      simpa [notify, hrole, eq_comm] using hnotify
    exact Or.inl ⟨by simp [Constraint.ofEdge, hrole], rfl, rfl⟩

/-! ### The simulation -/

/-- A pop is a turn: it lines up the constraints of the popped statement. -/
theorem Matches.pop (hforced : ∀ i, ∀ v ∈ t.selectors i, v.kind.isForcedUse = false)
    {st : WorkState n} {c : Chaotic.System.Config (Fin n) SelectorId (Constraint n) SelectionNode}
    (h : Matches t base st c) {k : ℕ} {i : Fin n}
    (hget : st.worklist[k]? = some i) :
    Matches t base (st.pop t k i)
      ⟨c.value, c.pending \ {i}, Constraint.ofStatement t base i⟩ := by
  have hctx : updateState t st.ctx i = st.ctx := updateState_eq_self (hforced i) st.ctx
  have hsel : hasSelection t st.ctx i = (getSelection t base i).isSome := by
    rw [Bool.eq_iff_iff, hasSelection_iff, h.edges.getSelection_isSome]
  refine ⟨by simpa only [WorkState.pop, hctx] using h.edges, ?_, ?_, ?_,
    h.consistent.pop hget, ?_⟩
  · simpa only [WorkState.pop, hctx] using h.value
  · ext j
    simp [WorkState.pop, h.pending, mem_swapRemove h.consistent.nodup hget]
  · simp only [WorkState.pop, hctx, notifications, hsel, Constraint.ofStatement]
    split
    · rw [List.flatMap_map]
    · rfl
  · intro e he
    obtain ⟨hei, -, hesel⟩ := mem_notifications t he
    rw [hctx, hsel] at hesel
    rwa [hei]

/-- **A step of the worklist is a step of the iteration, or changes nothing there**, as long
as it gives no selector its first selection. -/
theorem matches_step (hforced : ∀ i, ∀ v ∈ t.selectors i, v.kind.isForcedUse = false)
    {st st' : WorkState n}
    {c : Chaotic.System.Config (Fin n) SelectorId (Constraint n) SelectionNode}
    (h : Matches t base st c) (hstep : Step db t st st')
    (hfirst : ∀ i, ∀ v ∈ t.selectors i, (st'.ctx.selection v.id).isSome = true →
      (st.ctx.selection v.id).isSome = true) :
    ∃ c', ReflTransGen (constraintSystem t base hgraph hshared).Step c c' ∧
      Matches t base st' c' := by
  obtain ⟨X, W, q⟩ := c
  cases hstep with
  | @pop st k i hqueue hget =>
    have hW : i ∈ W := by
      have hi : i ∈ st.worklist := List.mem_of_getElem? hget
      rw [show W = {i | i ∈ st.worklist} from h.pending]
      exact hi
    obtain rfl : q = [] := by simpa [hqueue] using h.queue
    exact ⟨_, .single (.pop hW), h.pop hforced hget⟩
  | @notify ctx ctx' worklist i d rest changed hnotify =>
    have hd := h.consistent.mem_dependents (i, d) List.mem_cons_self
    have hsel := h.notifiers (i, d) List.mem_cons_self
    have hrest : ∀ e ∈ rest, (getSelection t base e.1).isSome = true :=
      fun e he => h.notifiers e (List.mem_cons_of_mem _ he)
    have hcons : (WorkState.mk ctx' (scheduleIf changed worklist d.statement) rest).Consistent t :=
      h.consistent.step (.notify hnotify)
    have hq : q = Constraint.ofEdge i d ++ rest.flatMap fun e => Constraint.ofEdge e.1 e.2 := by
      simpa using h.queue
    rcases notify_fires hgraph hshared hforced h.edges hd hsel hnotify (hfirst d.statement) with
      ⟨hnil, rfl, rfl⟩ | ⟨k, hone, htarget, hfired⟩
    · exact ⟨_, .refl, h.edges, h.value, h.pending, by simpa [hnil] using hq, hcons, hrest⟩
    · obtain rfl : X = valueOf ctx := h.value
      obtain rfl : q = k :: rest.flatMap fun e => Constraint.ofEdge e.1 e.2 := by
        simpa [hone] using hq
      refine ⟨_, .single .fire, hfired.edges, hfired.value.symm, ?_, rfl, hcons, hrest⟩
      obtain rfl : W = {i | i ∈ worklist} := h.pending
      ext j
      rw [Set.mem_ofPred_eq, mem_scheduleIf, hfired.changed_iff]
      simp [constraintSystem, htarget, and_comm]

/-- **A run is a run of the iteration** up to its first state in which a selector has its
first selection. -/
theorem matches_of_run (hforced : ∀ i, ∀ v ∈ t.selectors i, v.kind.isForcedUse = false)
    {st st' : WorkState n}
    {c : Chaotic.System.Config (Fin n) SelectorId (Constraint n) SelectionNode}
    (h : Matches t base st c) (hrun : ReflTransGen (Step db t) st st')
    (hfirst : ∀ i, ∀ v ∈ t.selectors i, (st'.ctx.selection v.id).isSome = true →
      (base.selection v.id).isSome = true) :
    ∃ c', ReflTransGen (constraintSystem t base hgraph hshared).Step c c' ∧
      Matches t base st' c' := by
  induction hrun with
  | refl => exact ⟨c, .refl, h⟩
  | @tail mid st' _ hstep ih =>
    -- the state before the last step has no more selections than the one after
    have hmid : ∀ i, ∀ v ∈ t.selectors i, (mid.ctx.selection v.id).isSome = true →
        (base.selection v.id).isSome = true :=
      fun i v hv hsome => hfirst i v hv (hstep.isSome_mono hsome)
    obtain ⟨c', hcc', hc'⟩ := ih hmid
    obtain ⟨c'', hcc'', hc''⟩ := matches_step hgraph hshared hforced hc' hstep
      fun i v hv hsome => by rw [hc'.edges.isSome]; exact hfirst i v hv hsome
    exact ⟨c'', hcc'.trans hcc'', hc''⟩

/-- The iteration has finished when the worklist has. -/
theorem Matches.finished {st : WorkState n}
    {c : Chaotic.System.Config (Fin n) SelectorId (Constraint n) SelectionNode}
    (h : Matches t base st c) (hfin : st.Finished) : c.Finished := by
  refine ⟨?_, by simp [h.queue, hfin.2]⟩
  rw [h.pending, hfin.1]
  ext
  simp

/-- The state of a run between two pops stands for the iteration with its nodes, none of
whose constraints are under way. -/
theorem matches_start {st : WorkState n} (hcons : st.Consistent t) (hqueue : st.queue = []) :
    Matches t st.ctx st ⟨valueOf st.ctx, {i | i ∈ st.worklist}, []⟩ where
  edges := .refl _
  value := rfl
  pending := rfl
  queue := by simp [hqueue]
  consistent := hcons
  notifiers := by simp [hqueue]

end Fires

end Askl
