import Askl.Query.Constraints
import Askl.Query.Termination

/-!
# The fixpoint of a query whose selectors are all resolved

Without weak statements, and with a selection in every selector from the start, every
notification constrains.  The worklist then computes the greatest family of node sets in
which every node is supported by the parent of its statement and by the union of its
children, whatever the recorded edges are and in whatever order statements are popped.

## Main definitions

* `familyNodes` — the nodes a family of sets gives a statement.
* `Supported` — every node is supported by the parent and by the children.

## Main results

* `supported_iff` — the families the iteration of the constraints ends at the greatest of
  are the supported ones.
* `isGreatest_of_run` — **a finished run ends at the greatest supported family.**
* `worklist_fixpoint` — every run ends there.
-/

namespace Askl

open Relation

variable {n : ℕ} {db : Database} (t : StatementTree n)

/-- The nodes a family of sets, one for each selector, gives a statement. -/
def familyNodes (X : SelectorId → Set SelectionNode) (i : Fin n) : Set SelectionNode :=
  {a | ∃ v ∈ t.selectors i, a ∈ X v.id}

/-- Every node of a statement below another is supported by the nodes of the parent, and
every node of a statement above others by the nodes of all its children, along the edges a
context has recorded. -/
structure Supported (ctx : ExecutionContext n) (X : SelectorId → Set SelectionNode) : Prop where
  byParent : ∀ {i p}, t.parent i = some p → ∀ v ∈ t.selectors i, ∀ a ∈ X v.id,
    ∃ s, getSelection t ctx p = some s ∧
      s.SupportedByParent (familyNodes t X p) (t.relationshipType i) a
  byChildren : ∀ {i p}, t.parent i = some p → ∀ v ∈ t.selectors p, ∀ a ∈ X v.id,
    ∃ m, mergeSelections t ctx (t.children p) = some m ∧
      m.SupportedByChild {b | ∃ c ∈ t.children p, b ∈ familyNodes t X c}
        (t.relationshipType i) a

section Resolved

variable {t} {ctx : ExecutionContext n}
  (hsome : ∀ i, ∀ v ∈ t.selectors i, (ctx.selection v.id).isSome = true)

include hsome

theorem statementNodes_eq (X : SelectorId → Set SelectionNode) (i : Fin n) :
    statementNodes t ctx X i = familyNodes t X i := by
  rw [statementNodes, contributing_eq_self (hsome i)]
  rfl

theorem getSelection_isSome_of_resolved (i : Fin n) :
    (getSelection t ctx i).isSome = true := by
  have hne := t.selectors_ne_nil i
  exact (getSelection_isSome_iff t ctx i).mpr ⟨_, List.getLast?_eq_some_getLast hne,
    hsome i _ (List.getLast_mem hne)⟩

/-- When all selectors are resolved, the union of some children exists. -/
theorem mergeSelections_isSome_of_resolved {cs : List (Fin n)} (hne : cs ≠ []) :
    (mergeSelections t ctx cs).isSome = true := by
  obtain ⟨c, hc⟩ := List.exists_mem_of_ne_nil cs hne
  obtain ⟨s, hs⟩ := Option.isSome_iff_exists.mp (getSelection_isSome_of_resolved hsome c)
  rw [mergeSelections_eq, if_neg]
  · rfl
  · exact List.ne_nil_of_mem (List.mem_filterMap.mpr ⟨c, hc, hs⟩)

variable (hweak : ∀ i, t.weak i = false)

include hweak

omit hsome in
/-- No child is left out of the union when none is weak. -/
theorem mergedChildren_eq (p : Fin n) : mergedChildren t p = t.children p := by
  refine List.filter_eq_self.mpr fun c _ => ?_
  have hne : t.selectors c ≠ [] := t.selectors_ne_nil c
  simp [StatementTree.shouldSkipInParentMerge, hweak, hne]

/-- Every child gets past the gates of its parent. -/
theorem constrainsParent_of_resolved {i p : Fin n} (h : t.parent i = some p) :
    constrainsParent t ctx p = true := by
  have hne : t.children p ≠ [] := List.ne_nil_of_mem (t.mem_children.mpr h)
  rw [constrainsParent, mergedChildren_eq hweak, mergeSelections_isSome_of_resolved hsome hne,
    Bool.and_true, List.all_eq_true]
  intro c _
  have hc := t.selectors_ne_nil c
  simp only [isSelectionSome, Bool.or_eq_true, List.any_eq_true]
  exact Or.inr ⟨_, List.getLast_mem hc, hsome c _ (List.getLast_mem hc)⟩

/-- **The stable families are the supported ones.** -/
theorem supported_iff (huse : ∀ i, ∀ v ∈ t.selectors i, v.kind.asUse = none)
    {deps : Fin n → List (StatementDependent n)} (hgraph : t.buildDependencyGraph = .ok deps)
    (hshared : ∀ i j, ∀ u ∈ t.selectors i, ∀ v ∈ t.selectors j, u.id = v.id →
      (ctx.selection u.id).isSome = true → i = j) (X : SelectorId → Set SelectionNode) :
    (∀ i, ∀ k ∈ (constraintSystem t ctx hgraph hshared).constraints i,
      (constraintSystem t ctx hgraph hshared).Satisfies X k) ↔ Supported t ctx X := by
  have hchildren : ∀ p, childrenNodes t ctx X p =
      {b | ∃ c ∈ t.children p, b ∈ familyNodes t X c} := by
    intro p
    simp only [childrenNodes, mergedChildren_eq hweak, statementNodes_eq hsome]
  constructor
  · intro h
    refine ⟨fun {i p} hp v hv a ha => ?_, fun {i p} hp v hv a ha => ?_⟩
    · have hsel := getSelection_isSome_of_resolved hsome p
      obtain ⟨s, hs⟩ := Option.isSome_iff_exists.mp hsel
      refine ⟨s, hs, ?_⟩
      have hsat := h p _ (Constraint.mem_ofStatement_fromParent t ctx hp hsel) v.id
        ⟨v, hv, rfl, hsome i v hv, fun _ q _ => hweak q⟩ ha
      rw [← statementNodes_eq hsome]
      exact hsat p s hp hs
    · have hne : t.children p ≠ [] := List.ne_nil_of_mem (t.mem_children.mpr hp)
      obtain ⟨m, hm⟩ := Option.isSome_iff_exists.mp (mergeSelections_isSome_of_resolved hsome hne)
      refine ⟨m, hm, ?_⟩
      have hsat := h i _ (Constraint.mem_ofStatement_fromChildren t ctx hp
        (getSelection_isSome_of_resolved hsome i)) v.id
        ⟨v, hv, rfl, hsome p v hv, constrainsParent_of_resolved hsome hweak hp⟩ ha
      rw [← hchildren, ← t.childrenRelationship_eq hp]
      exact hsat m (by rwa [mergedChildren_eq hweak])
  · rintro h i k hk id ⟨v, hv, rfl, -, hhit⟩ a ha
    obtain ⟨-, d, hd, hkd⟩ := (Constraint.mem_ofStatement t ctx).mp hk
    cases k with
    | fromChildren p =>
      intro m hm
      have hrole : d.role = .parent ∧ d.statement = p := by
        unfold Constraint.ofEdge at hkd
        split at hkd <;> simp_all
      have hp := ((t.mem_dependents_parent hrole.1).mp hd).1
      rw [hrole.2] at hp
      obtain ⟨m', hm', hsup⟩ := h.byChildren hp v hv a ha
      rw [mergedChildren_eq hweak] at hm
      obtain rfl := Option.some.inj (hm.symm.trans hm')
      rwa [hchildren, t.childrenRelationship_eq hp]
    | fromParent c =>
      intro p s hp hs
      obtain ⟨s', hs', hsup⟩ := h.byParent hp v hv a ha
      obtain rfl := Option.some.inj (hs.symm.trans hs')
      rwa [statementNodes_eq hsome]
    | fromProvider i c =>
      obtain ⟨l, hl, -⟩ := hhit
      simp [VerbKind.useLabel, huse c v hv] at hl

end Resolved

/-! ### The runs -/

section Run

variable {t} {ctx : ExecutionContext n} {deps : Fin n → List (StatementDependent n)}
  (hgraph : t.buildDependencyGraph = .ok deps)
  (hshared : ∀ i j, ∀ u ∈ t.selectors i, ∀ v ∈ t.selectors j, u.id = v.id →
    (ctx.selection u.id).isSome = true → i = j)
  (huse : ∀ i, ∀ v ∈ t.selectors i, v.kind.asUse = none)
  (hsome : ∀ i, ∀ v ∈ t.selectors i, (ctx.selection v.id).isSome = true)

include huse hsome

/-- No run of a query whose selectors are all resolved comes to a notification that fails. -/
theorem not_fails_of_run {st : WorkState n} (hrun : ReflTransGen (Step db t) (seed t ctx) st)
    (e : ExecError) : ¬st.Fails db t e := by
  rintro ⟨i, d, rest, -, he⟩
  have hsome' : ∀ v ∈ t.selectors d.statement, (st.ctx.selection v.id).isSome = true := by
    intro v hv
    exact Runs.invariant_of_run (I := fun st => (st.ctx.selection v.id).isSome = true)
      (fun h hstep => hstep.isSome_mono h) hrun (hsome _ v hv)
  obtain ⟨r, hr⟩ := exists_notify_eq_ok (huse d.statement) hsome'
  exact absurd (hr.symm.trans he) (by simp)

include hgraph hshared in
/-- **A finished run ends at the greatest supported family** below the initial nodes. -/
theorem isGreatest_of_run (hweak : ∀ i, t.weak i = false) {st : WorkState n}
    (hrun : ReflTransGen (Step db t) (seed t ctx) st) (hfin : st.Finished) :
    IsGreatest {X | X ≤ valueOf ctx ∧ Supported t ctx X} (valueOf st.ctx) := by
  have hforced : ∀ i, ∀ v ∈ t.selectors i, v.kind.isForcedUse = false := by
    intro i v hv
    simp [VerbKind.isForcedUse, huse i v hv]
  obtain ⟨c, hc, hm⟩ := matches_of_run hgraph hshared hforced
    (matches_start (consistent_seed t ctx) rfl) hrun fun i v hv _ => hsome i v hv
  have hpending : ∀ i k, k ∈ (constraintSystem t ctx hgraph hshared).constraints i →
      i ∈ {i | i ∈ (seed t ctx).worklist} := by
    intro i k hk
    obtain ⟨hsel, -⟩ := (Constraint.mem_ofStatement t ctx).mp hk
    simpa [seed, hasSelection_iff] using hsel
  have hgreatest := Chaotic.System.isGreatest_of_finished _ rfl hpending hc (hm.finished hfin)
  rw [hm.value] at hgreatest
  simp only [supported_iff hsome hweak huse hgraph hshared] at hgreatest
  exact hgreatest

end Run

variable {t}

/-- **The fixpoint of the worklist.**  Take a tree without weak statements whose selectors
all have a selection after the roots, which leaves out unit, use and forced verbs, and give
these selections any recorded edges.  Whatever statement each pop returns, no run goes on
for ever or fails, and a run that has finished has computed the greatest supported family
of subsets of the initial nodes. -/
theorem worklist_fixpoint {deps : Fin n → List (StatementDependent n)}
    (hgraph : t.buildDependencyGraph = .ok deps) {layers : LayerStore n}
    {roots : List RootLayer} {ctx₀ : ExecutionContext n}
    (hroots : computeRoots db t layers roots = .ok ctx₀) (hweak : ∀ i, t.weak i = false)
    (hsome : ∀ i, ∀ v ∈ t.selectors i, (ctx₀.selection v.id).isSome = true)
    {ctx : ExecutionContext n}
    (hnodes : ∀ id, (ctx.selection id).map (·.nodes) = (ctx₀.selection id).map (·.nodes)) :
    (¬∃ run : ℕ → WorkState n, run 0 = seed t ctx ∧ ∀ k, Step db t (run k) (run (k + 1))) ∧
      (∀ st, ReflTransGen (Step db t) (seed t ctx) st → (∀ e, ¬st.Fails db t e) ∧
        (st.Finished →
          IsGreatest {X | X ≤ valueOf ctx ∧ Supported t ctx X} (valueOf st.ctx))) ∧
      ∃ fuel ctx', runWorklist db t fuel ctx = some (.ok ctx') := by
  have hcomputed := computed_of_computeRoots hroots
  have hstarts : ∀ i, ∀ v ∈ t.selectors i, v.kind.startsEmpty = false := by
    intro i v hv
    by_contra hne
    have hnone := (hcomputed i).selection_eq_none hv (by simpa using hne)
    simpa [hnone] using hsome i v hv
  have huse : ∀ i, ∀ v ∈ t.selectors i, v.kind.asUse = none := by
    intro i v hv
    have hv' := hstarts i v hv
    cases hk : v.kind <;> simp_all [VerbKind.startsEmpty, VerbKind.asUse]
  have hsome' : ∀ i, ∀ v ∈ t.selectors i, (ctx.selection v.id).isSome = true := by
    intro i v hv
    have heq := congrArg Option.isSome (hnodes v.id)
    rw [Option.isSome_map, Option.isSome_map] at heq
    exact heq.trans (hsome i v hv)
  -- a selector that two statements share is a unit verb
  have hshared : ∀ i j, ∀ u ∈ t.selectors i, ∀ v ∈ t.selectors j, u.id = v.id →
      (ctx.selection u.id).isSome = true → i = j := by
    intro i j u hu v hv hid _
    by_contra hne
    obtain rfl := t.id_inj hu hv hid
    have hunit := t.id_shared hu hv hne
    simpa [hunit, VerbKind.startsEmpty] using hstarts i u hu
  have hranked : Ranked t (seed t ctx) := by
    refine ⟨consistent_seed t ctx, ?_⟩
    rintro j ⟨v, hv, -, -⟩
    obtain ⟨hv, hforced⟩ := mem_forcedUses.mp hv
    simp [VerbKind.isForcedUse, huse j v hv] at hforced
  have hterm : Runs.Terminates (Step db t) (seed t ctx) := terminates_of_ranked hgraph hranked
  refine ⟨Runs.not_exists_infinite_run hterm, fun st hrun => ?_, ?_⟩
  · exact ⟨not_fails_of_run huse hsome' hrun,
      isGreatest_of_run hgraph hshared huse hsome' hweak hrun⟩
  · obtain ⟨fuel, r, hr⟩ := exists_runWorklist_eq_some hterm
    obtain ⟨st, hrun, ⟨-, rfl⟩ | ⟨e, he, -⟩⟩ := exists_run_of_runWorklist db t hr
    · exact ⟨fuel, st.ctx, hr⟩
    · exact absurd he (not_fails_of_run huse hsome' hrun e)

/-- `"a" { "b" }`. -/
def callTree : StatementTree 2 :=
  .ofChecked
    (fun i => if i = 0 then .plain [.plain 0 (.name (nameFilter ['a']) (some ['a']))]
      else .plain [.plain 1 (.name (nameFilter ['b']) (some ['b']))])
    (fun i => if i = 0 then none else some 0) ⟨true, true⟩ (by decide)

/-- A name below a name, over the selections the roots give them. -/
theorem callTree_fixpoint : ∃ ctx st,
    computeRoots callDatabase callTree noLayers [⟨1, 1⟩] = .ok ctx ∧
    ReflTransGen (Step callDatabase callTree) (seed callTree ctx) st ∧ st.Finished ∧
    IsGreatest {X | X ≤ valueOf ctx ∧ Supported callTree ctx X} (valueOf st.ctx) := by
  obtain ⟨ctx, hctx, hobs⟩ := exists_ok_of_map
    (x := some (computeRoots callDatabase callTree noLayers [⟨1, 1⟩]))
    (f := fun ctx => (List.finRange 2).all fun i =>
      (callTree.selectors i).all fun v => (ctx.selection v.id).isSome)
    (b := true) (by decide +kernel)
  have hroots := Option.some.inj hctx
  have hsome : ∀ i, ∀ v ∈ callTree.selectors i, (ctx.selection v.id).isSome = true := by
    simpa using hobs
  obtain ⟨-, hruns, fuel, ctx', hrun⟩ := worklist_fixpoint
    (callTree.buildDependencyGraph_eq_ok (by decide +kernel)) hroots (by decide) hsome
    (fun id => rfl)
  obtain ⟨st, hst, ⟨hfin, -⟩ | ⟨e, he, -⟩⟩ := exists_run_of_runWorklist _ _ hrun
  · exact ⟨ctx, st, hroots, hst, hfin, (hruns st hst).2 hfin⟩
  · exact absurd he ((hruns st hst).1 e)

end Askl
