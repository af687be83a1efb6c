import Askl.Query.Constraints
import Askl.Query.ComputeRoots

/-!
# The order of the pops

A statement without a selection is derived from whichever neighbour is popped first, and
the two derivations differ: downward it is what lies directly below the parent, upward the
innermost container of the child.  Once the last first selection has been given, the order
does not matter any more: all that is left is the iteration of fixed constraints.

## Main definitions

* `nodeSet` — the nodes of a statement, as a set.
* `follow`, `outcome` — a run that pops given statements, one after the other, and the
  instances it ends with.

## Main results

* `nodeSet_eq_of_runs` — **two runs from one state that give no selector its first selection
  end alike.**
* `not_confluent` — a unit statement between two names, popped from above and from below;
  and an inherited `_`, whose constraints go unnoticed by the other statements that hold it.
-/

namespace Askl

open Relation

variable {n : ℕ} (db : Database) (t : StatementTree n)

/-- The nodes of a statement, as a set. -/
def nodeSet (ctx : ExecutionContext n) (i : Fin n) : Option (Set SelectionNode) :=
  (getSelection t ctx i).map fun s => {a | a ∈ s.nodes}

variable {db t}

/-- The nodes of a statement are those its contributing selectors have. -/
theorem nodeSet_eq {base ctx : ExecutionContext n} (h : SameEdges base ctx) (i : Fin n) :
    nodeSet t ctx i =
      (getSelection t base i).map fun _ => statementNodes t base (valueOf ctx) i := by
  have hsome := h.getSelection_isSome (t := t) i
  cases hget : getSelection t ctx i with
  | none =>
    have hnone : getSelection t base i = none := by simpa [hget] using hsome
    simp [nodeSet, hget, hnone]
  | some s =>
    obtain ⟨s', hs'⟩ := Option.isSome_iff_exists.mp (hsome.symm.trans (by simp [hget]))
    rw [nodeSet, hget, hs', Option.map_some, Option.map_some]
    exact congrArg some (Set.ext fun a => h.mem_getSelection hget)

/-! ### Chosen pops -/

section Follow

variable (db t)

/-- Send the notifications under way; one that fails stops the run. -/
def drain : List (Fin n × StatementDependent n) → ExecutionContext n → List (Fin n) →
    Option (WorkState n)
  | [], ctx, worklist => some ⟨ctx, worklist, []⟩
  | (i, d) :: rest, ctx, worklist => match notify db t ctx i d with
    | .error _ => none
    | .ok (changed, ctx') => drain rest ctx' (scheduleIf changed worklist d.statement)

/-- Pop the given statements, one after the other, with all their notifications. -/
def follow : List (Fin n) → WorkState n → Option (WorkState n)
  | [], st => some st
  | i :: is, st =>
    let k := st.worklist.idxOf i
    if st.worklist[k]? = some i then
      match drain db t (st.pop t k i).queue (st.pop t k i).ctx (st.pop t k i).worklist with
      | none => none
      | some st' => follow is st'
    else none

end Follow

theorem run_of_drain {q : List (Fin n × StatementDependent n)} {ctx : ExecutionContext n}
    {worklist : List (Fin n)} {st : WorkState n} (h : drain db t q ctx worklist = some st) :
    ReflTransGen (Step db t) ⟨ctx, worklist, q⟩ st ∧ st.queue = [] := by
  induction q generalizing ctx worklist with
  | nil =>
    obtain rfl := Option.some.inj h
    exact ⟨.refl, rfl⟩
  | cons e q ih =>
    rw [drain] at h
    cases hn : notify db t ctx e.1 e.2 with
    | error e' => simp [hn] at h
    | ok r =>
      simp only [hn] at h
      obtain ⟨hrun, hq⟩ := ih h
      exact ⟨.head (.notify hn) hrun, hq⟩

/-- Following an order of pops is a run. -/
theorem run_of_follow {is : List (Fin n)} {st st' : WorkState n} (hq : st.queue = [])
    (h : follow db t is st = some st') :
    ReflTransGen (Step db t) st st' ∧ st'.queue = [] := by
  induction is generalizing st with
  | nil =>
    obtain rfl := Option.some.inj h
    exact ⟨.refl, hq⟩
  | cons i is ih =>
    rw [follow] at h
    split at h
    · next hget =>
      split at h
      · cases h
      · next st₁ hdrain =>
        obtain ⟨hrun₁, hq₁⟩ := run_of_drain hdrain
        obtain ⟨hrun, hq'⟩ := ih hq₁ h
        exact ⟨.head (.pop hq hget) (hrun₁.trans hrun), hq'⟩
    · cases h

/-- Functions `a` ⊃ `m` ⊃ `n` ⊃ `c`, nested in one another. -/
def nestDatabase : Database :=
  .singleFile [.plain 1 ['a'], .plain 2 ['m'], .plain 3 ['n'], .plain 4 ['c']]
    [.plain 1 1 0 100 (.refl true), .plain 2 2 10 90 (.refl true), .plain 3 3 20 80 (.refl true),
      .plain 4 4 30 40 (.refl true)]
    [] (.refl true) (.refl true) (.refl true)

/-- `"a" {{ "c" }}`. -/
def betweenTree : StatementTree 3 :=
  .ofChecked
    (fun i => if i = 0 then .plain [.plain 0 (.name (nameFilter ['a']) (some ['a']))]
      else if i = 1 then .plain [.plain 1 .unit]
      else .plain [.plain 2 (.name (nameFilter ['c']) (some ['c']))])
    (fun i => if i = 0 then none else some (i - 1)) ⟨true, true⟩ (by decide)

variable (db t) in
/-- The instances a statement ends with when statements are popped in a given order. -/
def outcome (order : List (Fin n)) (st : WorkState n) (i : Fin n) : Option (List ℤ) :=
  (follow db t order st).bind fun st' =>
    if st'.worklist = [] then (getSelection t st'.ctx i).map (·.getInstanceIds) else none

theorem exists_of_outcome {order : List (Fin n)} {st : WorkState n} (hq : st.queue = [])
    {i : Fin n} {ids : List ℤ} (h : outcome db t order st i = some ids) :
    ∃ st', ReflTransGen (Step db t) st st' ∧ st'.Finished ∧
      (getSelection t st'.ctx i).map (·.getInstanceIds) = some ids := by
  obtain ⟨st', hst', h⟩ := Option.bind_eq_some_iff.mp h
  obtain ⟨hrun, hq'⟩ := run_of_follow hq hst'
  split at h
  · next hnil => exact ⟨st', hrun, ⟨hnil, hq'⟩, h⟩
  · cases h

/-- Statements whose nodes have different instances have different nodes. -/
theorem nodeSet_ne {ctx ctx' : ExecutionContext n} {i : Fin n} {ids ids' : List ℤ} {x : ℤ}
    (h : (getSelection t ctx i).map (·.getInstanceIds) = some ids)
    (h' : (getSelection t ctx' i).map (·.getInstanceIds) = some ids') (hx : x ∈ ids)
    (hx' : x ∉ ids') : nodeSet t ctx i ≠ nodeSet t ctx' i := by
  obtain ⟨s, hs, rfl⟩ := Option.map_eq_some_iff.mp h
  obtain ⟨s', hs', rfl⟩ := Option.map_eq_some_iff.mp h'
  intro heq
  rw [nodeSet, nodeSet, hs, hs', Option.map_some, Option.map_some, Option.some.injEq] at heq
  obtain ⟨a, ha, rfl⟩ := List.mem_map.mp hx
  have ha' : a ∈ {a | a ∈ s'.nodes} := heq ▸ ha
  exact hx' (List.mem_map_of_mem ha')

/-! ### Order independence -/

/-- **Order independence.**  Take any point of a run between two pops, in a query without
forced uses and with no selection in a selector that two statements share.  Two
continuations that finish, and that give no selector its first selection, end with the same
nodes in every statement, whatever they pop. -/
theorem nodeSet_eq_of_runs {deps : Fin n → List (StatementDependent n)}
    (hgraph : t.buildDependencyGraph = .ok deps)
    (hforced : ∀ i, ∀ v ∈ t.selectors i, v.kind.isForcedUse = false)
    {ctx : ExecutionContext n} {st st₁ st₂ : WorkState n}
    (hrun : ReflTransGen (Step db t) (seed t ctx) st) (hqueue : st.queue = [])
    (hshared : ∀ i j, ∀ u ∈ t.selectors i, ∀ v ∈ t.selectors j, u.id = v.id →
      (st.ctx.selection u.id).isSome = true → i = j)
    (hrun₁ : ReflTransGen (Step db t) st st₁) (hfin₁ : st₁.Finished)
    (hfirst₁ : ∀ i, ∀ v ∈ t.selectors i, (st₁.ctx.selection v.id).isSome = true →
      (st.ctx.selection v.id).isSome = true)
    (hrun₂ : ReflTransGen (Step db t) st st₂) (hfin₂ : st₂.Finished)
    (hfirst₂ : ∀ i, ∀ v ∈ t.selectors i, (st₂.ctx.selection v.id).isSome = true →
      (st.ctx.selection v.id).isSome = true) (i : Fin n) :
    nodeSet t st₁.ctx i = nodeSet t st₂.ctx i := by
  have hstart := matches_start (t := t) (consistent_of_run hrun) hqueue
  obtain ⟨c₁, hc₁, hm₁⟩ := matches_of_run hgraph hshared hforced hstart hrun₁ hfirst₁
  obtain ⟨c₂, hc₂, hm₂⟩ := matches_of_run hgraph hshared hforced hstart hrun₂ hfirst₂
  have hvalue := Chaotic.System.finished_value_eq _ rfl hc₁ (hm₁.finished hfin₁) hc₂
    (hm₂.finished hfin₂)
  rw [nodeSet_eq hm₁.edges, nodeSet_eq hm₂.edges, ← hm₁.value, ← hm₂.value, hvalue]

/-- Once `a` has been popped, the statement between `a` and `c` has its selection, and both
orders of the other pops end alike. -/
theorem between_nodeSet_eq : ∃ st st₁ st₂,
    ReflTransGen (Step nestDatabase betweenTree) st st₁ ∧ st₁.Finished ∧
      ReflTransGen (Step nestDatabase betweenTree) st st₂ ∧ st₂.Finished ∧
      ∀ i, nodeSet betweenTree st₁.ctx i = nodeSet betweenTree st₂.ctx i := by
  obtain ⟨ctx, -, hobs⟩ := exists_ok_of_map
    (x := some (computeRoots nestDatabase betweenTree noLayers [⟨1, 1⟩]))
    (f := fun ctx => (follow nestDatabase betweenTree [0] (seed betweenTree ctx)).map
      fun st => ((List.finRange 3).all fun i => (betweenTree.selectors i).all fun v =>
          (st.ctx.selection v.id).isSome) &&
        outcome nestDatabase betweenTree [1, 2] st 1 == some [2] &&
        outcome nestDatabase betweenTree [2, 1] st 1 == some [2])
    (b := some true) (by decide +kernel)
  obtain ⟨st, hst, hobs⟩ := Option.map_eq_some_iff.mp hobs
  simp only [Bool.and_eq_true, beq_iff_eq] at hobs
  obtain ⟨⟨hall, h⟩, h'⟩ := hobs
  have hsome : ∀ i, ∀ v ∈ betweenTree.selectors i, (st.ctx.selection v.id).isSome = true := by
    simpa using hall
  have hdistinct : ∀ i j, ∀ u ∈ betweenTree.selectors i, ∀ v ∈ betweenTree.selectors j,
      u.id = v.id → i = j := by decide
  obtain ⟨hrun, hq⟩ := run_of_follow rfl hst
  obtain ⟨st₁, hrun₁, hfin₁, -⟩ := exists_of_outcome hq h
  obtain ⟨st₂, hrun₂, hfin₂, -⟩ := exists_of_outcome hq h'
  exact ⟨st, st₁, st₂, hrun₁, hfin₁, hrun₂, hfin₂, nodeSet_eq_of_runs
    (betweenTree.buildDependencyGraph_eq_ok (by decide +kernel)) (by decide) hrun hq
    (fun i j u hu v hv hid _ => hdistinct i j u hu v hv hid) hrun₁ hfin₁
    (fun i v hv _ => hsome i v hv) hrun₂ hfin₂ fun i v hv _ => hsome i v hv⟩

/-! ### Two orders that end differently -/

variable (db t) in
/-- Two runs from a state finish with different nodes in a statement. -/
def OrderShows (st : WorkState n) (i : Fin n) : Prop :=
  ∃ st₁ st₂, ReflTransGen (Step db t) st st₁ ∧ st₁.Finished ∧
    ReflTransGen (Step db t) st st₂ ∧ st₂.Finished ∧ nodeSet t st₁.ctx i ≠ nodeSet t st₂.ctx i

theorem orderShows_of_outcome {order order' : List (Fin n)} {st : WorkState n}
    (hq : st.queue = []) {i : Fin n} {ids ids' : List ℤ}
    (h : outcome db t order st i = some ids) (h' : outcome db t order' st i = some ids') {x : ℤ}
    (hx : x ∈ ids) (hx' : x ∉ ids') : OrderShows db t st i := by
  obtain ⟨st₁, hrun₁, hfin₁, hids₁⟩ := exists_of_outcome hq h
  obtain ⟨st₂, hrun₂, hfin₂, hids₂⟩ := exists_of_outcome hq h'
  exact ⟨st₁, st₂, hrun₁, hfin₁, hrun₂, hfin₂, nodeSet_ne hids₁ hids₂ hx hx'⟩

/-- Two functions `a`, in one of which `m` ⊃ `b` ⊃ `d` are nested, and in the other `n` ⊃ `b`. -/
def twoNestsDatabase : Database :=
  .singleFile [.plain 1 ['a'], .plain 2 ['m'], .plain 3 ['b'], .plain 4 ['d'], .plain 5 ['a'],
      .plain 6 ['n'], .plain 7 ['b']]
    [.plain 1 1 0 100 (.refl true), .plain 2 2 10 90 (.refl true), .plain 3 3 20 80 (.refl true),
      .plain 4 4 30 40 (.refl true), .plain 5 5 200 300 (.refl true),
      .plain 6 6 210 290 (.refl true), .plain 7 7 220 280 (.refl true)]
    [] (.refl true) (.refl true) (.refl true)

/-- The verb of a sample query with a given identity. -/
def inheritedKind (k : SelectorId) : VerbKind :=
  if k = 0 then .name (nameFilter ['a']) (some ['a'])
  else if k = 2 then .name (nameFilter ['b']) (some ['b'])
  else if k = 3 then .name (nameFilter ['d']) (some ['d'])
  else .unit

/-- The selectors of the statements: those below `_` inherit its unit verb. -/
def inheritedIds (i : Fin 4) : List SelectorId :=
  if i = 0 then [0] else if i = 1 then [1] else [1, i]

private theorem mem_inheritedSelectors {i : Fin 4} {v : Verb}
    (h : v ∈ (Command.plain ((inheritedIds i).map fun k => .plain k (inheritedKind k))).selectors) :
    v = .plain v.id (inheritedKind v.id) ∧ v.id ∈ inheritedIds i := by
  obtain ⟨k, hk, rfl⟩ := List.mem_map.mp (List.mem_filter.mp h).1
  exact ⟨rfl, hk⟩

/-- What two statements share is the unit verb. -/
private theorem inheritedIds_shared {i j : Fin 4} {u : Verb}
    (hu : u ∈ (Command.plain ((inheritedIds i).map fun k => .plain k (inheritedKind k))).selectors)
    (hv : u ∈ (Command.plain ((inheritedIds j).map fun k => .plain k (inheritedKind k))).selectors)
    (hne : i ≠ j) : u = .plain 1 .unit := by
  have hid : u.id = 1 := by
    have hi := (mem_inheritedSelectors hu).2
    have hj := (mem_inheritedSelectors hv).2
    generalize u.id = k at hi hj
    clear hu hv
    revert i j k
    decide
  rw [(mem_inheritedSelectors hu).1, hid]
  rfl

/-- `"a" { _ { "b" { "d" } } }`. -/
def inheritedTree : StatementTree 4 where
  command i := .plain ((inheritedIds i).map fun k => .plain k (inheritedKind k))
  parent i := if i = 0 then none else some (i - 1)
  relationshipType _ := ⟨true, true⟩
  unnest _ := false
  parent_lt {i p} h := by
    revert i p
    decide
  siblings_relationshipType _ _ := rfl
  selectors_ne_nil i := by
    revert i
    decide
  id_inj hu hv h := by
    rw [(mem_inheritedSelectors hu).1, (mem_inheritedSelectors hv).1, h]
  id_nodup := by decide
  id_shared hu hv hne := by
    rw [inheritedIds_shared hu hv hne]
    rfl
  inherited {i j u} hu hv hne c hc := by
    -- every statement below another one holds the unit verb
    have hbelow : ∀ c : Fin 4, c ≠ 0 → 1 ∈ inheritedIds c := by decide
    have hmem : 1 ∈ inheritedIds c := hbelow c (by rintro rfl; simp at hc)
    rw [inheritedIds_shared hu hv hne]
    exact List.mem_filter.mpr ⟨List.mem_map.mpr ⟨1, hmem, rfl⟩, rfl⟩

/-- **The order of the pops shows**: in what the statement between two names selects, which
is `m` when `a` is popped first and `n` when `c` is; and, from a state in which every selector
has its selection, around an inherited `_`, below which one order keeps both functions `a` and
another one of them. -/
theorem not_confluent :
    (∃ ctx, computeRoots nestDatabase betweenTree noLayers [⟨1, 1⟩] = .ok ctx ∧
      OrderShows nestDatabase betweenTree (seed betweenTree ctx) 1) ∧
    ∃ ctx st, computeRoots twoNestsDatabase inheritedTree noLayers [⟨1, 1⟩] = .ok ctx ∧
      ReflTransGen (Step twoNestsDatabase inheritedTree) (seed inheritedTree ctx) st ∧
      st.queue = [] ∧
      (∀ i, ∀ v ∈ inheritedTree.selectors i, (st.ctx.selection v.id).isSome = true) ∧
      OrderShows twoNestsDatabase inheritedTree st 0 := by
  refine ⟨?_, ?_⟩
  · obtain ⟨ctx, hctx, hobs⟩ := exists_ok_of_map
      (x := some (computeRoots nestDatabase betweenTree noLayers [⟨1, 1⟩]))
      (f := fun ctx => (outcome nestDatabase betweenTree [0, 2, 1] (seed betweenTree ctx) 1,
        outcome nestDatabase betweenTree [2, 0, 1] (seed betweenTree ctx) 1))
      (b := (some [2], some [3])) (by decide +kernel)
    obtain ⟨h, h'⟩ := Prod.mk.inj hobs
    exact ⟨ctx, Option.some.inj hctx,
      orderShows_of_outcome rfl h h' (x := 2) (by decide) (by decide)⟩
  · obtain ⟨ctx, hctx, hobs⟩ := exists_ok_of_map
      (x := some (computeRoots twoNestsDatabase inheritedTree noLayers [⟨1, 1⟩]))
      (f := fun ctx => (follow twoNestsDatabase inheritedTree [0] (seed inheritedTree ctx)).map
        fun st => ((List.finRange 4).all fun i => (inheritedTree.selectors i).all fun v =>
            (st.ctx.selection v.id).isSome) &&
          outcome twoNestsDatabase inheritedTree [1, 3, 2] st 0 == some [1, 5] &&
          outcome twoNestsDatabase inheritedTree [3, 1, 2, 0] st 0 == some [1])
      (b := some true) (by decide +kernel)
    obtain ⟨st, hst, hobs⟩ := Option.map_eq_some_iff.mp hobs
    simp only [Bool.and_eq_true, beq_iff_eq] at hobs
    obtain ⟨⟨hall, h⟩, h'⟩ := hobs
    obtain ⟨hrun, hq⟩ := run_of_follow rfl hst
    refine ⟨ctx, st, Option.some.inj hctx, hrun, hq, by simpa using hall, ?_⟩
    exact orderShows_of_outcome hq h h' (x := 5) (by decide) (by decide)

end Askl
