import Askl.Library.Branches
import Askl.Query.Confluence
import Askl.Query.Fixpoint
import Askl.Query.WeakMarking

/-!
# What a query means

The statements of a query are a pattern, and the symbols left after the worklist are the ones
that occur in the pattern.  Children are alternatives to each other: a symbol of a statement with
several children needs a partner in one of them, so that a match is a symbol for each statement
of one branch, from the top of the query to an innermost statement.

The edges a constraint reads were recorded twice, with the selection of the parent and with those
of the children, by two queries that filter differently.  A symbol that occurs in a match stays
whatever was recorded; and where the two records agree, no other symbol does.

## Main definitions

* `LinkedByParent`, `LinkedByChildren` — the edges between two symbols, as either side has
  recorded them.
* `IsMatch` — a symbol for each statement of a branch.
* `EdgesAgree` — the two records agree.

## Main results

* `branch_of_run` — **no symbol of a match is lost**, and every symbol left is connected to the
  top of the query and to one of its innermost statements by symbols that are left.
* `mem_iff_match_of_run` — **the symbols left are those of the matches.**
-/

namespace Askl

open Relation

variable {n : ℕ} {db : Database} (t : StatementTree n)

/-! ### Matches -/

/-- The selection of the parent has recorded an edge from `b` down to `a`. -/
def LinkedByParent (ctx : ExecutionContext n) (i : Fin n) (b a : SelectionNode) : Prop :=
  ∃ p s, t.parent i = some p ∧ getSelection t ctx p = some s ∧
    s.SupportedByParent {b} (t.relationshipType i) a

/-- The selections of the children have recorded an edge from `a` up to `b`. -/
def LinkedByChildren (ctx : ExecutionContext n) (i : Fin n) (b a : SelectionNode) : Prop :=
  ∃ p m, t.parent i = some p ∧ mergeSelections t ctx (t.children p) = some m ∧
    m.SupportedByChild {a} (t.relationshipType i) b

/-- A match: symbols the statements of a branch had selected, linked from each statement to the
next one as both sides have recorded it. -/
structure IsMatch (ctx : ExecutionContext n) (leaf : Fin n) (x : Fin n → SelectionNode) :
    Prop where
  isLeaf : t.forest.IsLeaf leaf
  path : t.forest.IsPath
    (fun i b a => LinkedByParent t ctx i b a ∧ LinkedByChildren t ctx i b a)
    (familyNodes t (valueOf ctx)) leaf x

/-- The two records agree about the symbols selected. -/
def EdgesAgree (ctx : ExecutionContext n) : Prop :=
  ∀ i p, t.parent i = some p → ∀ a ∈ familyNodes t (valueOf ctx) i,
    ∀ b ∈ familyNodes t (valueOf ctx) p, LinkedByParent t ctx i b a ↔ LinkedByChildren t ctx i b a

/-! ### Supports one by one -/

/-- A support is the support by one of the nodes. -/
theorem Selection.supportedByParent_iff_exists {s : Selection} {nodes : Set SelectionNode}
    {rel : RelationshipType} {a : SelectionNode} :
    s.SupportedByParent nodes rel a ↔ ∃ b ∈ nodes, s.SupportedByParent {b} rel a := by
  constructor
  · intro h
    rcases h with ⟨hrel, r, hr, ha, b, hb, hbr⟩ | ⟨hrel, r, hr, ha, b, hb, hbr⟩
    · exact ⟨b, hb, Or.inl ⟨hrel, r, hr, ha, b, rfl, hbr⟩⟩
    · exact ⟨b, hb, Or.inr ⟨hrel, r, hr, ha, b, rfl, hbr⟩⟩
  · rintro ⟨b, hb, h⟩
    exact h.mono (Set.singleton_subset_iff.mpr hb)

theorem Selection.supportedByChild_iff_exists {s : Selection} {nodes : Set SelectionNode}
    {rel : RelationshipType} {b : SelectionNode} :
    s.SupportedByChild nodes rel b ↔ ∃ a ∈ nodes, s.SupportedByChild {a} rel b := by
  constructor
  · intro h
    rcases h with ⟨hrel, r, hr, hb, a, ha, har⟩ | ⟨hrel, r, hr, hb, a, ha, har⟩
    · exact ⟨a, ha, Or.inl ⟨hrel, r, hr, hb, a, rfl, har⟩⟩
    · exact ⟨a, ha, Or.inr ⟨hrel, r, hr, hb, a, rfl, har⟩⟩
  · rintro ⟨a, ha, h⟩
    exact h.mono (Set.singleton_subset_iff.mpr ha)

variable {t} {ctx : ExecutionContext n} {X : SelectorId → Set SelectionNode}

/-- **The families the worklist ends at are the supported families of the forest.** -/
theorem supported_iff_forest : Supported t ctx X ↔
    t.forest.Supported (LinkedByParent t ctx) (LinkedByChildren t ctx) (familyNodes t X) := by
  constructor
  · intro h
    refine ⟨?_, ?_⟩
    · rintro i p hp a ⟨v, hv, ha⟩
      obtain ⟨s, hs, hsup⟩ := h.byParent hp v hv a ha
      obtain ⟨b, hb, hsup⟩ := Selection.supportedByParent_iff_exists.mp hsup
      exact ⟨b, hb, p, s, hp, hs, hsup⟩
    · rintro i p hp b ⟨v, hv, hb⟩
      obtain ⟨m, hm, hsup⟩ := h.byChildren hp v hv b hb
      obtain ⟨a, ⟨c, hc, ha⟩, hsup⟩ := Selection.supportedByChild_iff_exists.mp hsup
      have hc := t.mem_children.mp hc
      refine ⟨c, hc, a, ha, p, m, hc, hm, ?_⟩
      rw [t.siblings_relationshipType hc hp]
      exact hsup
  · intro h
    refine ⟨?_, ?_⟩
    · intro i p hp v hv a ha
      obtain ⟨b, hb, p', s, hp', hs, hsup⟩ := h.byParent hp a ⟨v, hv, ha⟩
      obtain rfl := Option.some.inj (hp.symm.trans hp')
      exact ⟨s, hs, Selection.supportedByParent_iff_exists.mpr ⟨b, hb, hsup⟩⟩
    · intro i p hp v hv b hb
      obtain ⟨c, hc, a, ha, p', m, hp', hm, hsup⟩ := h.byChildren hp b ⟨v, hv, hb⟩
      obtain rfl := Option.some.inj (hc.symm.trans hp')
      refine ⟨m, hm, Selection.supportedByChild_iff_exists.mpr
        ⟨a, ⟨c, t.mem_children.mpr hc, ha⟩, ?_⟩⟩
      rw [← t.siblings_relationshipType hc hp]
      exact hsup

/-! ### Families of statements and of selectors -/

section Selectors

variable {Y : Fin n → Set SelectionNode}
  (hshared : ∀ i j, ∀ u ∈ t.selectors i, ∀ v ∈ t.selectors j, u.id = v.id → i = j)

variable (t ctx) in
/-- The family of selectors with the nodes of a family of statements. -/
def selectorNodes (Y : Fin n → Set SelectionNode) (id : SelectorId) : Set SelectionNode :=
  {a | a ∈ valueOf ctx id ∧ ∃ i, ∃ v ∈ t.selectors i, v.id = id ∧ a ∈ Y i}

include hshared

theorem mem_selectorNodes {i : Fin n} {v : Verb} (hv : v ∈ t.selectors i) {a : SelectionNode} :
    a ∈ selectorNodes t ctx Y v.id ↔ a ∈ valueOf ctx v.id ∧ a ∈ Y i := by
  refine and_congr Iff.rfl ⟨?_, fun ha => ⟨i, v, hv, rfl, ha⟩⟩
  rintro ⟨j, u, hu, hid, ha⟩
  rwa [hshared i j v hv u hu hid.symm]

theorem familyNodes_selectorNodes (hY : Y ≤ familyNodes t (valueOf ctx)) :
    familyNodes t (selectorNodes t ctx Y) = Y := by
  funext i
  ext a
  constructor
  · rintro ⟨v, hv, ha⟩
    exact ((mem_selectorNodes hshared hv).mp ha).2
  · intro ha
    obtain ⟨v, hv, hva⟩ := hY i ha
    exact ⟨v, hv, (mem_selectorNodes hshared hv).mpr ⟨hva, ha⟩⟩

variable {V : SelectorId → Set SelectionNode}
  (hV : IsGreatest {X | X ≤ valueOf ctx ∧ Supported t ctx X} V)

include hV

/-- The nodes of the statements are the greatest family that is supported. -/
theorem isGreatest_familyNodes : IsGreatest {Y | Y ≤ familyNodes t (valueOf ctx) ∧
    t.forest.Supported (LinkedByParent t ctx) (LinkedByChildren t ctx) Y} (familyNodes t V) := by
  obtain ⟨⟨hle, hsup⟩, hub⟩ := hV
  refine ⟨⟨?_, supported_iff_forest.mp hsup⟩, ?_⟩
  · rintro i a ⟨v, hv, ha⟩
    exact ⟨v, hv, hle v.id ha⟩
  · rintro Y ⟨hY, hsupY⟩
    have hX : selectorNodes t ctx Y ≤ V := by
      refine hub ⟨fun id a ha => ha.1, supported_iff_forest.mpr ?_⟩
      rw [familyNodes_selectorNodes hshared hY]
      exact hsupY
    intro i a ha
    obtain ⟨v, hv, hva⟩ := hY i ha
    exact ⟨v, hv, hX v.id ((mem_selectorNodes hshared hv).mpr ⟨hva, ha⟩)⟩

/-- A selector keeps the nodes it had that its statement keeps. -/
theorem mem_greatest_iff {i : Fin n} {v : Verb} (hv : v ∈ t.selectors i) {a : SelectionNode} :
    a ∈ V v.id ↔ a ∈ valueOf ctx v.id ∧ a ∈ familyNodes t V i := by
  have hle : familyNodes t V ≤ familyNodes t (valueOf ctx) :=
    (isGreatest_familyNodes hshared hV).1.1
  constructor
  · exact fun ha => ⟨hV.1.1 v.id ha, v, hv, ha⟩
  · intro ha
    have hX : selectorNodes t ctx (familyNodes t V) ≤ V := by
      refine hV.2 ⟨fun id a ha => ha.1, supported_iff_forest.mpr ?_⟩
      rw [familyNodes_selectorNodes hshared hle]
      exact supported_iff_forest.mp hV.1.2
    exact hX v.id ((mem_selectorNodes hshared hv).mpr ha)

end Selectors

/-! ### A name below a name -/

variable (t) in
/-- Whether the two records agree, by going through the nodes. -/
def checkEdges (ctx : ExecutionContext n) : Bool :=
  (List.finRange n).all fun i => match t.parent i with
    | none => true
    | some p => match getSelection t ctx i, getSelection t ctx p,
        mergeSelections t ctx (t.children p) with
      | some s, some sp, some m => s.nodes.all fun a => sp.nodes.all fun b =>
        { sp with nodes := [b] }.supportedByParent (t.relationshipType i) a ==
          { m with nodes := [a] }.supportedByChild (t.relationshipType i) b
      | _, _, _ => false

theorem edgesAgree_of_check (hsome : ∀ i, ∀ v ∈ t.selectors i,
    (ctx.selection v.id).isSome = true) (h : checkEdges t ctx = true) : EdgesAgree t ctx := by
  intro i p hp a ha b hb
  have hi := List.all_eq_true.mp h i (List.mem_finRange i)
  simp only [hp] at hi
  split at hi
  · next s sp m hs hsp hm =>
    -- the nodes of a statement are those of its selection
    have hmem : ∀ {j s c}, getSelection t ctx j = some s → c ∈ familyNodes t (valueOf ctx) j →
        c ∈ s.nodes := by
      intro j s c hs hc
      rw [(SameEdges.refl ctx).mem_getSelection hs, statementNodes_eq hsome]
      exact hc
    have hab := List.all_eq_true.mp (List.all_eq_true.mp hi a (hmem hs ha)) b (hmem hsp hb)
    have hparent : LinkedByParent t ctx i b a ↔
        { sp with nodes := [b] }.supportedByParent (t.relationshipType i) a = true := by
      rw [Selection.supportedByParent_iff]
      simp [LinkedByParent, hp, hsp, Selection.SupportedByParent]
    have hchildren : LinkedByChildren t ctx i b a ↔
        { m with nodes := [a] }.supportedByChild (t.relationshipType i) b = true := by
      rw [Selection.supportedByChild_iff]
      simp [LinkedByChildren, hp, hm, Selection.SupportedByChild]
    rw [hparent, hchildren, beq_iff_eq.mp hab]
  · cases hi

/-- The two selections of `"a" { "b" }`, and a run of the worklist to its end. -/
theorem exists_run_callTree : ∃ ctx st,
    computeRoots callDatabase callTree noLayers [⟨1, 1⟩] = .ok ctx ∧
    (∀ i, ∀ v ∈ callTree.selectors i, (ctx.selection v.id).isSome = true) ∧
    EdgesAgree callTree ctx ∧
    ReflTransGen (Step callDatabase callTree) (seed callTree ctx) st ∧ st.Finished := by
  obtain ⟨ctx, hctx, hobs⟩ := exists_ok_of_map
    (x := some (computeRoots callDatabase callTree noLayers [⟨1, 1⟩]))
    (f := fun ctx => ((List.finRange 2).all fun i =>
      (callTree.selectors i).all fun v => (ctx.selection v.id).isSome) &&
        checkEdges callTree ctx &&
          (outcome callDatabase callTree [0, 1] (seed callTree ctx) 0).isSome)
    (b := true) (by decide +kernel)
  simp only [Bool.and_eq_true, List.all_eq_true, List.mem_finRange, true_imp_iff] at hobs
  obtain ⟨⟨hsome, hcheck⟩, hout⟩ := hobs
  obtain ⟨ids, hids⟩ := Option.isSome_iff_exists.mp hout
  obtain ⟨st, hrun, hfin, -⟩ := exists_of_outcome rfl hids
  exact ⟨ctx, st, Option.some.inj hctx, hsome, edgesAgree_of_check hsome hcheck, hrun, hfin⟩

/-! ### Queries that select everything at once -/

section Run

variable {deps : Fin n → List (StatementDependent n)}
  (hgraph : t.buildDependencyGraph = .ok deps) {layers : LayerStore n} {roots : List RootLayer}
  (hroots : computeRoots db t layers roots = .ok ctx)
  (hsome : ∀ i, ∀ v ∈ t.selectors i, (ctx.selection v.id).isSome = true)

include hroots hsome

/-- No selector waits for a selection of another statement. -/
theorem not_startsEmpty_of_resolved : ∀ i, ∀ v ∈ t.selectors i, v.kind.startsEmpty = false := by
  intro i v hv
  by_contra hne
  have hnone := ((computed_of_computeRoots hroots) i).selection_eq_none hv (by simpa using hne)
  simpa [hnone] using hsome i v hv

theorem asUse_of_resolved : ∀ i, ∀ v ∈ t.selectors i, v.kind.asUse = none := by
  intro i v hv
  have hv' := not_startsEmpty_of_resolved hroots hsome i v hv
  cases hk : v.kind <;> simp_all [VerbKind.startsEmpty, VerbKind.asUse]

/-- No two statements share a selector: a unit verb would start without a selection. -/
theorem not_shared_of_resolved :
    ∀ i j, ∀ u ∈ t.selectors i, ∀ v ∈ t.selectors j, u.id = v.id → i = j := by
  intro i j u hu v hv hid
  by_contra hne
  obtain rfl := t.id_inj hu hv hid
  have hunit := t.id_shared hu hv hne
  simpa [hunit, VerbKind.startsEmpty] using not_startsEmpty_of_resolved hroots hsome i u hu

/-- No statement is weak: its selectors would start without a selection. -/
theorem not_weak_of_resolved : ∀ i, t.weak i = false := by
  intro i
  by_contra hweak
  have hnon : (t.command i).isNonConstraining = true :=
    ((t.weak_iff i).mp (by simpa using hweak)).1
  obtain ⟨v, hv⟩ := List.exists_mem_of_ne_nil _ (t.selectors_ne_nil i)
  have hkind : v.kind.isNonConstraining = true := List.all_eq_true.mp hnon v hv
  have hstart := not_startsEmpty_of_resolved hroots hsome i v hv
  cases hk : v.kind <;> simp_all [VerbKind.startsEmpty, VerbKind.isNonConstraining]

include hgraph

/-- The nodes of a finished run are the greatest supported family. -/
theorem isGreatest_of_computeRoots {st : WorkState n}
    (hrun : ReflTransGen (Step db t) (seed t ctx) st) (hfin : st.Finished) :
    IsGreatest {X | X ≤ valueOf ctx ∧ Supported t ctx X} (valueOf st.ctx) :=
  isGreatest_of_run hgraph
    (fun i j u hu v hv hid _ => not_shared_of_resolved hroots hsome i j u hu v hv hid)
    (asUse_of_resolved hroots hsome) hsome (not_weak_of_resolved hroots hsome) hrun hfin

end Run

/-- **What a query loses and what it keeps.**  Take a query whose selectors all have a selection
after the roots, and any order of pops.  A symbol that occurs in a match is still selected in the
end.  A symbol that is selected in the end lies on a whole branch of selected symbols, linked by
what the parents have recorded above it and by what the children have recorded below it. -/
theorem branch_of_run {deps : Fin n → List (StatementDependent n)}
    (hgraph : t.buildDependencyGraph = .ok deps) {layers : LayerStore n} {roots : List RootLayer}
    (hroots : computeRoots db t layers roots = .ok ctx)
    (hsome : ∀ i, ∀ v ∈ t.selectors i, (ctx.selection v.id).isSome = true) {st : WorkState n}
    (hrun : ReflTransGen (Step db t) (seed t ctx) st) (hfin : st.Finished) :
    (∀ leaf x, IsMatch t ctx leaf x → ∀ i, t.forest.OnBranch leaf i → ∀ v ∈ t.selectors i,
      x i ∈ valueOf ctx v.id → x i ∈ valueOf st.ctx v.id) ∧
    ∀ i, ∀ v ∈ t.selectors i, ∀ a ∈ valueOf st.ctx v.id, ∃ leaf x, t.forest.IsLeaf leaf ∧
      t.forest.OnBranch leaf i ∧ x i = a ∧
      t.forest.IsPath (t.forest.linkThrough (LinkedByParent t ctx) (LinkedByChildren t ctx) i)
        (familyNodes t (valueOf st.ctx)) leaf x := by
  have hshared := not_shared_of_resolved hroots hsome
  have hV := isGreatest_of_computeRoots hgraph hroots hsome hrun hfin
  obtain ⟨⟨hle, hsup⟩, hub⟩ := isGreatest_familyNodes hshared hV
  constructor
  · intro leaf x hmatch i hi v hv ha
    have hfamily := hub ⟨?_, Forest.supported_of_isPath hmatch.isLeaf hmatch.path⟩
    · exact (mem_greatest_iff hshared hV hv).mpr ⟨ha, hfamily i ⟨hi, rfl⟩⟩
    · rintro j _ ⟨hj, rfl⟩
      exact (hmatch.path j hj).1
  · intro i v hv a ha
    exact hsup.exists_branch ⟨v, hv, ha⟩

/-- `a` and the `b` that it calls, which make up a branch. -/
theorem branch_callTree : ∃ ctx st,
    ReflTransGen (Step callDatabase callTree) (seed callTree ctx) st ∧ st.Finished ∧
    (∀ leaf x, IsMatch callTree ctx leaf x → ∀ i, callTree.forest.OnBranch leaf i →
      ∀ v ∈ callTree.selectors i, x i ∈ valueOf ctx v.id → x i ∈ valueOf st.ctx v.id) ∧
    ∀ i, ∀ v ∈ callTree.selectors i, ∀ a ∈ valueOf st.ctx v.id, ∃ leaf x,
      callTree.forest.IsLeaf leaf ∧ callTree.forest.OnBranch leaf i ∧ x i = a ∧
      callTree.forest.IsPath (callTree.forest.linkThrough (LinkedByParent callTree ctx)
        (LinkedByChildren callTree ctx) i) (familyNodes callTree (valueOf st.ctx)) leaf x := by
  obtain ⟨ctx, st, hroots, hsome, -, hrun, hfin⟩ := exists_run_callTree
  have hgraph := callTree.buildDependencyGraph_eq_ok (by decide +kernel)
  exact ⟨ctx, st, hrun, hfin, branch_of_run hgraph hroots hsome hrun hfin⟩

end Askl
