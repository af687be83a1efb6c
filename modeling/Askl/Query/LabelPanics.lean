import Askl.Query.SiblingOrder

/-!
# The panics of labels

The build of the graph holds a statement's execution state while it enters the edges of
the labels the statement uses, and panics when one of them leads back to the statement.
The resolution of a label reads the selections of its carriers, and panics when the
registry has no entry for one of their selectors.

## Main definitions

* `getSelectionOrPanic`, `resolveLabelsOrPanic` — the lookups, with their panics.
* `queueOrPanic`, `rootsOrPanic` — the loop of `compute_roots`, with its panics.
* `executeLabels` — the build and the loop.
* `SelfUsesStopped`, `CarriersBefore` — what a query has to satisfy.

## Main results

* `rootsOrPanic_eq` — a loop that does not panic is the loop of `computeRoots`.
* `never_panics_iff` — **the queries whose labels never panic.**
-/

namespace Askl

variable {n : ℕ}

/-- Why the handling of labels panics: an execution state that is already borrowed, or a
selector that should have been added. -/
inductive LabelPanic (n : ℕ) where
  | alreadyBorrowed (statement : Fin n)
  | notAdded (selector : SelectorId)
  deriving DecidableEq

/-- How a query ends early: with a diagnostic, or with a panic. -/
inductive Stop (n : ℕ) where
  | labelNotFound (label : Text)
  | exec (e : ExecError)
  | panic (p : LabelPanic n)

variable (db : Database) (t : StatementTree n) (layers : LayerStore n)

/-! ### The lookups and their panics -/

/-- `get_selection`: every selector of the statement is looked up in the registry. -/
def getSelectionOrPanic (ctx : ExecutionContext n) (j : Fin n) :
    Except SelectorId (Option Selection) :=
  match (t.selectors j).find? fun v => (ctx.registry.lookup v.id).isNone with
  | some v => .error v.id
  | none => .ok (getSelection t ctx j)

/-- One edge of the resolution. -/
def resolveEdge (ctx : ExecutionContext n) (resolved : LabelResolutions) (p : Fin n × Text) :
    Except SelectorId LabelResolutions :=
  match getSelectionOrPanic t ctx p.1 with
  | .error id => .error id
  | .ok none => .ok resolved
  | .ok (some s) => .ok (resolved.insert p.2 (canonicalIds (s.nodes.map (·.symbol.id))))

/-- The resolution of a statement's labels. -/
def resolveLabelsOrPanic (ctx : ExecutionContext n) (i : Fin n) :
    Except SelectorId LabelResolutions :=
  (preSeedLabels t i).foldlM (resolveEdge t ctx) ∅

/-- One turn of the loop of `compute_roots`. -/
def queueOrPanic (st : List (PendingCompute n) × ExecutionContext n) (i : Fin n) :
    Except (Stop n) (List (PendingCompute n) × ExecutionContext n) :=
  if hasPreSeed t i then match drainPending db t layers st.1 st.2 with
    | .error e => .error (.exec e)
    | .ok ctx => match resolveLabelsOrPanic t ctx i with
      | .error id => .error (.panic (.notAdded id))
      | .ok resolved => .ok ([{ pendingCompute t ctx i with resolved := resolved }], ctx)
  else .ok (st.1 ++ [pendingCompute t st.2 i], st.2)

/-- The loop, over some statements. -/
def queueAllOrPanic (roots : List RootLayer) (is : List (Fin n)) :
    Except (Stop n) (List (PendingCompute n) × ExecutionContext n) :=
  is.foldlM (queueOrPanic db t layers) ([], .new roots)

/-- `compute_roots`. -/
def rootsOrPanic (roots : List RootLayer) : Except (Stop n) (ExecutionContext n) :=
  match queueAllOrPanic db t layers roots (List.finRange n) with
  | .error e => .error e
  | .ok st => match drainPending db t layers st.1 st.2 with
    | .error e => .error (.exec e)
    | .ok ctx => .ok ctx

/-- The build of the graph, and then `compute_roots`. -/
def executeLabels (roots : List RootLayer) : Except (Stop n) (ExecutionContext n) :=
  match t.buildDependencyGraph with
  | .error (.labelNotFound l) => .error (.labelNotFound l)
  | .error (.selfReference j) => .error (.panic (.alreadyBorrowed j))
  | .ok _ => rootsOrPanic db t layers roots

variable {db t layers}

theorem isComputed_iff {ctx : ExecutionContext n} {j : Fin n} :
    isComputed t ctx j = true ↔ ∀ v ∈ t.selectors j, v.id ∈ ctx.registry := by
  unfold isComputed
  rw [List.all_eq_true]
  exact forall₂_congr fun v _ => AList.lookup_isSome

theorem getSelectionOrPanic_eq {ctx : ExecutionContext n} {j : Fin n}
    (h : isComputed t ctx j = true) :
    getSelectionOrPanic t ctx j = .ok (getSelection t ctx j) := by
  unfold getSelectionOrPanic
  have hnone : (t.selectors j).find? (fun v => (ctx.registry.lookup v.id).isNone) = none := by
    rw [List.find?_eq_none]
    intro v hv
    have hsome := List.all_eq_true.mp h v hv
    rw [Option.isNone_iff_eq_none]
    intro hlookup
    rw [hlookup] at hsome
    cases hsome
  rw [hnone]

theorem isComputed_of_getSelectionOrPanic {ctx : ExecutionContext n} {j : Fin n}
    {s : Option Selection} (h : getSelectionOrPanic t ctx j = .ok s) :
    isComputed t ctx j = true ∧ s = getSelection t ctx j := by
  unfold getSelectionOrPanic at h
  split at h
  · cases h
  · next hnone =>
    refine ⟨List.all_eq_true.mpr fun v hv => ?_, (Except.ok.inj h).symm⟩
    have hsome := List.find?_eq_none.mp hnone v hv
    rwa [Option.isNone_iff_eq_none, ← ne_eq, Option.ne_none_iff_isSome] at hsome

/-- A resolution that does not panic has found every selector, and is the resolution of
`computeRoots`. -/
theorem resolveLabelsOrPanic_eq_ok {ctx : ExecutionContext n} {i : Fin n}
    {resolved : LabelResolutions} : resolveLabelsOrPanic t ctx i = .ok resolved ↔
      (∀ p ∈ preSeedLabels t i, isComputed t ctx p.1 = true) ∧
        resolved = resolveLabels t ctx i := by
  unfold resolveLabelsOrPanic resolveLabels
  generalize preSeedLabels t i = edges
  generalize (∅ : LabelResolutions) = start
  induction edges generalizing start with
  | nil =>
    rw [List.foldlM_nil, Fallible.pure_eq_ok]
    exact ⟨fun h => ⟨by simp, h.symm⟩, fun h => h.2.symm⟩
  | cons p edges ih =>
    rw [List.foldlM_cons, List.foldl_cons, List.forall_mem_cons, and_assoc]
    constructor
    · intro h
      obtain ⟨next, hedge, hrest⟩ := Fallible.bind_eq_ok.mp h
      unfold resolveEdge at hedge
      split at hedge
      · cases hedge
      · next hsel =>
        obtain ⟨hcomputed, hnone⟩ := isComputed_of_getSelectionOrPanic hsel
        obtain rfl := Except.ok.inj hedge
        rw [← hnone]
        exact ⟨hcomputed, (ih _).mp hrest⟩
      · next s hsel =>
        obtain ⟨hcomputed, hsome⟩ := isComputed_of_getSelectionOrPanic hsel
        obtain rfl := Except.ok.inj hedge
        rw [← hsome]
        exact ⟨hcomputed, (ih _).mp hrest⟩
    · rintro ⟨hcomputed, hrest⟩
      refine Fallible.bind_eq_ok.mpr ⟨_, ?_, (ih _).mpr hrest⟩
      unfold resolveEdge
      rw [getSelectionOrPanic_eq hcomputed]
      cases getSelection t ctx p.1 with
      | none => rfl
      | some s => rfl

/-! ### A loop that does not panic -/

variable (db t layers) in
/-- One turn either panics or is the turn of `computeRoots`. -/
theorem queueOrPanic_eq (st : List (PendingCompute n) × ExecutionContext n) (i : Fin n) :
    (∃ p, queueOrPanic db t layers st i = .error (.panic p)) ∨
      queueOrPanic db t layers st i = (queueStatement db t layers st i).mapError Stop.exec := by
  unfold queueOrPanic queueStatement
  split
  · cases drainPending db t layers st.1 st.2 with
    | error e => exact Or.inr rfl
    | ok ctx =>
      dsimp only
      cases hres : resolveLabelsOrPanic t ctx i with
      | error id => exact Or.inl ⟨.notAdded id, rfl⟩
      | ok resolved =>
        obtain ⟨-, rfl⟩ := resolveLabelsOrPanic_eq_ok.mp hres
        exact Or.inr rfl
  · exact Or.inr rfl

variable (db t layers) in
/-- The loop either panics or is the loop of `computeRoots`. -/
theorem queueAllOrPanic_eq (roots : List RootLayer) (is : List (Fin n)) :
    (∃ p, queueAllOrPanic db t layers roots is = .error (.panic p)) ∨
      queueAllOrPanic db t layers roots is = (queueAll db t layers roots is).mapError Stop.exec := by
  unfold queueAllOrPanic queueAll
  generalize (([], .new roots) : List (PendingCompute n) × ExecutionContext n) = st
  induction is generalizing st with
  | nil => exact Or.inr rfl
  | cons i is ih =>
    rw [List.foldlM_cons, List.foldlM_cons]
    rcases queueOrPanic_eq db t layers st i with ⟨p, hp⟩ | heq
    · rw [hp]
      exact Or.inl ⟨p, rfl⟩
    · rw [heq]
      cases queueStatement db t layers st i with
      | error e => exact Or.inr rfl
      | ok st' => exact ih st'

/-- **A loop that does not panic is the loop of `computeRoots`.** -/
theorem rootsOrPanic_eq (roots : List RootLayer)
    (h : ∀ p, rootsOrPanic db t layers roots ≠ .error (.panic p)) :
    rootsOrPanic db t layers roots = (computeRoots db t layers roots).mapError Stop.exec := by
  rw [computeRoots_eq]
  unfold rootsOrPanic at h ⊢
  rcases queueAllOrPanic_eq db t layers roots (List.finRange n)
    with ⟨p, hp⟩ | heq
  · rw [hp] at h
    exact absurd rfl (h p)
  · rw [heq]
    cases queueAll db t layers roots (List.finRange n) with
    | error e => rfl
    | ok st =>
      show (match drainPending db t layers st.1 st.2 with
        | .error e => .error (.exec e)
        | .ok ctx => .ok ctx) = (drainPending db t layers st.1 st.2).mapError Stop.exec
      cases drainPending db t layers st.1 st.2 with
      | error e => rfl
      | ok ctx => rfl

/-! ### The registry -/

theorem mem_registry_applySelector {ctx : ExecutionContext n} {r : Verb × SelectorResult}
    {id : SelectorId} : id ∈ (applySelector ctx r).registry ↔
      id = r.1.id ∨ id ∈ ctx.registry := by
  have hset : id ∈ (ctx.setSelection r.1.id r.2.selection).registry ↔
      id = r.1.id ∨ id ∈ ctx.registry := AList.mem_insert _
  unfold applySelector
  dsimp only
  split
  · exact hset
  · unfold ExecutionContext.setCell
    split
    · exact hset
    · exact hset

theorem mem_registry_foldl {rs : List (Verb × SelectorResult)} {ctx : ExecutionContext n}
    {id : SelectorId} : id ∈ (rs.foldl applySelector ctx).registry ↔
      id ∈ ctx.registry ∨ ∃ p ∈ rs, p.1.id = id := by
  induction rs generalizing ctx with
  | nil => simp
  | cons r rs ih =>
    rw [List.foldl_cons, ih, mem_registry_applySelector, List.exists_mem_cons_iff]
    constructor
    · rintro ((rfl | h) | h)
      · exact Or.inr (Or.inl rfl)
      · exact Or.inl h
      · exact Or.inr (Or.inr h)
    · rintro (h | rfl | h)
      · exact Or.inl (Or.inr h)
      · exact Or.inl (Or.inl rfl)
      · exact Or.inr h

/-- An application enters the selectors of its statement. -/
theorem mem_registry_apply {i : Fin n} {parentScope childrenScope : ScopeContext}
    {eph : EphContext} {resolved : LabelResolutions} {r : ComputeResult}
    {ctx ctx' : ExecutionContext n}
    (hr : computeSelected db t layers i parentScope childrenScope eph resolved = .ok r)
    (happly : r.apply ctx i = .ok ctx') {id : SelectorId} :
    id ∈ ctx'.registry ↔ id ∈ ctx.registry ∨ ∃ v ∈ t.selectors i, v.id = id := by
  have hreg : ctx'.registry = (r.selections.foldl applySelector ctx).registry := by
    unfold ComputeResult.apply at happly
    dsimp only at happly
    split at happly
    · obtain rfl := Except.ok.inj happly
      rfl
    · split at happly
      · cases happly
      · obtain rfl := Except.ok.inj happly
        rfl
  rw [hreg, mem_registry_foldl, ← (computeSelected_ok hr).1]
  simp

/-- A drain enters the selectors of the queued statements. -/
theorem mem_registry_drain {ps : List (PendingCompute n)} {ctx ctx' : ExecutionContext n}
    (h : drainPending db t layers ps ctx = .ok ctx') {id : SelectorId} :
    id ∈ ctx'.registry ↔
      id ∈ ctx.registry ∨ ∃ p ∈ ps, ∃ v ∈ t.selectors p.statement, v.id = id := by
  induction ps generalizing ctx with
  | nil =>
    obtain rfl := drainPending_nil h
    simp
  | cons p ps ih =>
    obtain ⟨r, ctx₁, hr, happly, h⟩ := drainPending_cons h
    rw [ih h, mem_registry_apply hr happly, List.exists_mem_cons_iff, or_assoc]

/-- The selectors that the loop has entered, or will at the next drain, are those of the
statements it has visited. -/
def Entered (t : StatementTree n) (is : List (Fin n))
    (st : List (PendingCompute n) × ExecutionContext n) : Prop :=
  ∀ id, (id ∈ st.2.registry ∨ ∃ p ∈ st.1, ∃ v ∈ t.selectors p.statement, v.id = id) ↔
    ∃ k ∈ is, ∃ v ∈ t.selectors k, v.id = id

theorem Entered.start (roots : List RootLayer) : Entered t [] ([], .new roots) := by
  intro id
  simp [ExecutionContext.new]

/-- After a drain the registry holds the selectors of the statements visited. -/
theorem Entered.drain {is : List (Fin n)} {pending : List (PendingCompute n)}
    {ctx ctx' : ExecutionContext n} (h : Entered t is (pending, ctx))
    (hdrain : drainPending db t layers pending ctx = .ok ctx') {id : SelectorId} :
    id ∈ ctx'.registry ↔ ∃ k ∈ is, ∃ v ∈ t.selectors k, v.id = id := by
  rw [mem_registry_drain hdrain]
  exact h id

/-- One turn of the loop. -/
theorem Entered.queue {is : List (Fin n)} {st st' : List (PendingCompute n) × ExecutionContext n}
    {i : Fin n} (h : Entered t is st) (hq : queueOrPanic db t layers st i = .ok st') :
    Entered t (is ++ [i]) st' := by
  obtain ⟨pending, ctx⟩ := st
  have hsplit : ∀ id, (∃ k ∈ is ++ [i], ∃ v ∈ t.selectors k, v.id = id) ↔
      (∃ k ∈ is, ∃ v ∈ t.selectors k, v.id = id) ∨ ∃ v ∈ t.selectors i, v.id = id := by
    intro id
    simp only [List.mem_append, List.mem_singleton, or_and_right, exists_or, exists_eq_left]
  unfold queueOrPanic at hq
  split at hq
  · split at hq
    · cases hq
    · next ctx' hdrain =>
      split at hq
      · cases hq
      · obtain rfl := Except.ok.inj hq
        intro id
        rw [hsplit, h.drain hdrain]
        simp [pendingCompute]
  · obtain rfl := Except.ok.inj hq
    intro id
    rw [hsplit, ← h id]
    simp only [List.mem_append, List.mem_singleton, or_and_right, exists_or, exists_eq_left,
      or_assoc]
    rfl

/-! ### The build -/

variable (t)

/-- The labels the build looks up, each with the statement that uses it, in the order of the
lookups. -/
def StatementTree.labelUses : List (Fin n × Text) :=
  (List.finRange n).flatMap fun j =>
    (t.useLabels j ++ (t.command j).layerLabelRefs).map fun l => (j, l)

/-- In a list of uses, a statement that uses a label of its own comes after a use of a label
nobody carries: the build has stopped there. -/
def SelfUsesStopped (uses : List (Fin n × Text)) : Prop :=
  ∀ before u after, uses = before ++ u :: after → u.1 ∈ t.labeledStatements u.2 →
    ∃ w ∈ before, t.labeledStatements w.2 = []

/-- The selectors of the carriers of a label that a layer refers to are all selectors of
statements before the layer's. -/
def CarriersBefore : Prop :=
  ∀ i, ∀ l ∈ (t.command i).layerLabelRefs, ∀ j ∈ t.labeledStatements l, ∀ v ∈ t.selectors j,
    ∃ k < i, ∃ w ∈ t.selectors k, w.id = v.id

/-- The checks of the build over a list of uses. -/
def checkUses : List (Fin n × Text) → Except (GraphError n) Unit
  | [] => .ok ()
  | u :: us => match t.checkLabel u.1 u.2 with
    | .error e => .error e
    | .ok () => checkUses us

theorem checkUses_append (us vs : List (Fin n × Text)) : checkUses t (us ++ vs) =
    match checkUses t us with
    | .error e => .error e
    | .ok () => checkUses t vs := by
  induction us with
  | nil => rfl
  | cons u us ih =>
    rw [List.cons_append, checkUses, checkUses]
    cases t.checkLabel u.1 u.2 with
    | error e => rfl
    | ok => exact ih

theorem checkLabels_eq (j : Fin n) (ls : List Text) :
    t.checkLabels j ls = checkUses t (ls.map fun l => (j, l)) := by
  induction ls with
  | nil => rfl
  | cons l ls ih =>
    rw [StatementTree.checkLabels, List.map_cons, checkUses]
    cases t.checkLabel j l with
    | error e => rfl
    | ok => exact ih

theorem checkStatements_eq (js : List (Fin n)) : t.checkStatements js =
    checkUses t (js.flatMap fun j =>
      (t.useLabels j ++ (t.command j).layerLabelRefs).map fun l => (j, l)) := by
  induction js with
  | nil => rfl
  | cons j js ih =>
    rw [StatementTree.checkStatements, List.flatMap_cons, checkUses_append, ← checkLabels_eq]
    cases t.checkLabels j (t.useLabels j ++ (t.command j).layerLabelRefs) with
    | error e => rfl
    | ok => exact ih

/-- The checks stop at a use of a statement's own label unless they have stopped before. -/
theorem checkUses_selfReference (us : List (Fin n × Text)) :
    (∀ j, checkUses t us ≠ .error (.selfReference j)) ↔ SelfUsesStopped t us := by
  induction us with
  | nil =>
    constructor
    · rintro - before u after h
      simp at h
    · intro _ j h
      cases h
  | cons u us ih =>
    rw [checkUses, StatementTree.checkLabel]
    by_cases hnone : t.labeledStatements u.2 = []
    · -- nobody carries the label: the checks stop here, with a diagnostic
      rw [if_pos hnone]
      constructor
      · intro _ before w after hsplit hself
        cases before with
        | nil =>
          obtain ⟨rfl, -⟩ := List.cons.inj hsplit
          rw [hnone] at hself
          cases hself
        | cons w' before =>
          obtain ⟨rfl, -⟩ := List.cons.inj hsplit
          exact ⟨u, List.mem_cons_self, hnone⟩
      · intro _ j h
        cases h
    · rw [if_neg hnone]
      by_cases hself : u.1 ∈ t.labeledStatements u.2
      · -- the statement carries the label: the checks stop here, with a panic
        rw [if_pos hself]
        constructor
        · intro h
          exact absurd rfl (h u.1)
        · intro h
          obtain ⟨w, hw, -⟩ := h [] u us rfl hself
          cases hw
      · rw [if_neg hself]
        refine ih.trans ⟨fun h before w after hsplit hw => ?_, fun h before w after hsplit hw => ?_⟩
        · cases before with
          | nil =>
            obtain ⟨rfl, -⟩ := List.cons.inj hsplit
            exact absurd hw hself
          | cons w' before =>
            obtain ⟨x, hx, hxnone⟩ := h before w after (List.cons.inj hsplit).2 hw
            exact ⟨x, List.mem_cons_of_mem w' hx, hxnone⟩
        · obtain ⟨x, hx, hxnone⟩ := h (u :: before) w after (by rw [hsplit]; rfl) hw
          rcases List.mem_cons.mp hx with rfl | hx
          · exact absurd hxnone hnone
          · exact ⟨x, hx, hxnone⟩

theorem checkUses_ok_carried {us : List (Fin n × Text)} (h : checkUses t us = .ok ()) :
    ∀ u ∈ us, t.labeledStatements u.2 ≠ [] := by
  induction us with
  | nil => simp
  | cons u us ih =>
    rw [checkUses, StatementTree.checkLabel] at h
    rw [List.forall_mem_cons]
    by_cases hnone : t.labeledStatements u.2 = []
    · rw [if_pos hnone] at h
      cases h
    · rw [if_neg hnone] at h
      refine ⟨hnone, ih ?_⟩
      split at h
      · cases h
      · exact h

/-- Checks that meet only labels somebody carries do not stop with a diagnostic. -/
theorem checkUses_of_carried {us : List (Fin n × Text)}
    (h : ∀ u ∈ us, t.labeledStatements u.2 ≠ []) (l : Text) :
    checkUses t us ≠ .error (.labelNotFound l) := by
  induction us with
  | nil => simp [checkUses]
  | cons u us ih =>
    rw [List.forall_mem_cons] at h
    rw [checkUses, StatementTree.checkLabel, if_neg h.1]
    by_cases hself : u.1 ∈ t.labeledStatements u.2
    · rw [if_pos hself]
      simp
    · rw [if_neg hself]
      exact ih h.2

variable {t}

/-! ### The loop -/

theorem mem_preSeedLabels {i : Fin n} {p : Fin n × Text} : p ∈ preSeedLabels t i ↔
    p.2 ∈ (t.command i).layerLabelRefs ∧ p.1 ∈ t.labeledStatements p.2 := by
  unfold preSeedLabels
  rw [List.mem_flatMap]
  constructor
  · rintro ⟨l, hl, hp⟩
    obtain ⟨j, hj, rfl⟩ := List.mem_map.mp hp
    exact ⟨List.mem_eraseDups.mp hl, List.mem_eraseDups.mp hj⟩
  · rintro ⟨hl, hj⟩
    exact ⟨p.2, List.mem_eraseDups.mpr hl, List.mem_map.mpr ⟨p.1, List.mem_eraseDups.mpr hj, rfl⟩⟩

theorem queueAllOrPanic_concat {roots : List RootLayer} (is : List (Fin n)) (i : Fin n) :
    queueAllOrPanic db t layers roots (is ++ [i]) =
      queueAllOrPanic db t layers roots is >>= fun st => queueOrPanic db t layers st i := by
  unfold queueAllOrPanic
  rw [List.foldlM_append]
  congr 1
  funext st
  simp

theorem entered_of_queueAllOrPanic {roots : List RootLayer} {is : List (Fin n)}
    {st : List (PendingCompute n) × ExecutionContext n}
    (h : queueAllOrPanic db t layers roots is = .ok st) : Entered t is st := by
  induction is using List.reverseRecOn generalizing st with
  | nil =>
    obtain rfl := Except.ok.inj h
    exact .start roots
  | append_singleton is i ih =>
    rw [queueAllOrPanic_concat] at h
    obtain ⟨mid, hmid, hlast⟩ := Fallible.bind_eq_ok.mp h
    exact (ih hmid).queue hlast

/-- A turn whose carriers come before it does not panic. -/
theorem queueOrPanic_ne_panic (hbefore : CarriersBefore t) {i : Fin n}
    {st : List (PendingCompute n) × ExecutionContext n}
    (h : Entered t ((List.finRange n).take i) st) (p : LabelPanic n) :
    queueOrPanic db t layers st i ≠ .error (.panic p) := by
  intro hpanic
  obtain ⟨pending, ctx⟩ := st
  unfold queueOrPanic at hpanic
  split at hpanic
  · split at hpanic
    · cases hpanic
    · next ctx' hdrain =>
      have hcomputed : ∀ p ∈ preSeedLabels t i, isComputed t ctx' p.1 = true := by
        intro p hp
        obtain ⟨hl, hj⟩ := mem_preSeedLabels.mp hp
        rw [isComputed_iff]
        intro v hv
        obtain ⟨k, hk, w, hw, hid⟩ := hbefore i p.2 hl p.1 hj v hv
        exact (h.drain hdrain).mpr ⟨k, mem_take_finRange.mpr hk, w, hw, hid⟩
      rw [resolveLabelsOrPanic_eq_ok.mpr ⟨hcomputed, rfl⟩] at hpanic
      cases hpanic
  · cases hpanic

variable (db layers) in
theorem queueAllOrPanic_ne_panic (hbefore : CarriersBefore t) (roots : List RootLayer) {k : ℕ}
    (hk : k ≤ n) (p : LabelPanic n) :
    queueAllOrPanic db t layers roots ((List.finRange n).take k) ≠ .error (.panic p) := by
  induction k with
  | zero =>
    intro h
    cases h
  | succ k ih =>
    let i : Fin n := ⟨k, hk⟩
    have htake : (List.finRange n).take (k + 1) = (List.finRange n).take i ++ [i] :=
      take_finRange_succ i
    rw [htake, queueAllOrPanic_concat]
    cases hmid : queueAllOrPanic db t layers roots ((List.finRange n).take i) with
    | error e =>
      intro h
      obtain rfl : e = .panic p := Except.error.inj h
      exact ih (Nat.le_of_succ_le hk) hmid
    | ok st => exact queueOrPanic_ne_panic hbefore (entered_of_queueAllOrPanic hmid) p

/-- A turn that does not panic has found the selectors of its carriers. -/
theorem carriers_of_queueOrPanic {i : Fin n}
    {st st' : List (PendingCompute n) × ExecutionContext n}
    (h : Entered t ((List.finRange n).take i) st) (hq : queueOrPanic db t layers st i = .ok st')
    {l : Text} (hl : l ∈ (t.command i).layerLabelRefs) {j : Fin n}
    (hj : j ∈ t.labeledStatements l) {v : Verb} (hv : v ∈ t.selectors j) :
    ∃ k < i, ∃ w ∈ t.selectors k, w.id = v.id := by
  obtain ⟨pending, ctx⟩ := st
  have hedge : (j, l) ∈ preSeedLabels t i := mem_preSeedLabels.mpr ⟨hl, hj⟩
  have hpre : hasPreSeed t i = true := by
    unfold hasPreSeed
    have hne : (preSeedLabels t i).isEmpty = false := by
      rw [List.isEmpty_eq_false_iff_exists_mem]
      exact ⟨_, hedge⟩
    rw [hne]
    rfl
  unfold queueOrPanic at hq
  rw [if_pos hpre] at hq
  split at hq
  · cases hq
  · next ctx' hdrain =>
    split at hq
    · cases hq
    · next hresolved =>
      have hcomputed := (resolveLabelsOrPanic_eq_ok.mp hresolved).1 _ hedge
      obtain ⟨k, hk, w, hw, hid⟩ := (h.drain hdrain).mp (isComputed_iff.mp hcomputed v hv)
      exact ⟨k, mem_take_finRange.mp hk, w, hw, hid⟩

/-! ### A run without errors -/

/-- An index without rows. -/
def emptyDatabase : Database where
  projects := []
  objects := []
  symbolTypes := []
  symbols := []
  symbolInstances := []
  symbolRefs := []
  lower := id
  projects_nodup := by decide
  objects_nodup := by decide
  symbolTypes_nodup := by decide
  symbols_nodup := by decide
  symbolInstances_nodup := by decide
  symbolRefs_nodup := by decide

theorem load_eq_nil {R K : Type*} [DecidableEq K] {key : R → K} {eph : EphContext}
    {chainDependent : Bool} {build : VisibilitySpec → Query R} (h : ∀ vis, (build vis).rows = []) :
    cachedLoadPartitioned key eph chainDependent build = [] := by
  rw [List.eq_nil_iff_forall_not_mem]
  intro r hr
  obtain ⟨vis, hvis⟩ := mem_of_mem_load hr
  rw [h vis] at hvis
  cases hvis

theorem findSymbol_empty (f : CompositeFilter) (parentScope childrenScope : ScopeContext)
    (eph : EphContext) :
    findSymbol emptyDatabase f parentScope childrenScope eph = .ok .new := by
  have hcurrent : ∀ vis, (currentQuery emptyDatabase f vis).rows = [] := by
    intro vis
    simp [currentQuery, buildCurrentQuery, currentRows, Keyed.join, emptyDatabase]
  have hparents : ∀ ids scope vis, (parentsQuery emptyDatabase f ids scope vis).rows = [] := by
    intro ids scope vis
    simp [parentsQuery, buildParentsQuery, parentsRows, Keyed.join, emptyDatabase]
  have hchildren : ∀ ids scope vis, (childrenQuery emptyDatabase f ids scope vis).rows = [] := by
    intro ids scope vis
    simp [childrenQuery, buildChildrenQuery, childrenRows, parentsRows, Keyed.join, emptyDatabase]
  have hhasParents : ∀ ids vis, (hasParentsQuery emptyDatabase f ids vis).rows = [] := by
    intro ids vis
    simp [hasParentsQuery, buildHasParentsQuery, hasParentsRows, typedInstances, Keyed.join,
      emptyDatabase]
  have hhasChildren : ∀ ids, selectHasChildren emptyDatabase f ids eph = [] := by
    intro ids
    unfold selectHasChildren
    refine load_eq_nil fun vis => ?_
    split
    · simp [hasChildrenQuery, buildHasChildrenQuery, buildHasChildrenInner, hasChildrenRows,
        typedInstances, Keyed.join, emptyDatabase]
    · simp [cteHasChildrenQuery, buildHasChildrenInner, hasChildrenRows, typedInstances,
        Keyed.join, emptyDatabase]
  have hnone : collectSelection emptyDatabase f parentScope childrenScope eph = .new := by
    unfold collectSelection
    simp only [load_eq_nil hcurrent, load_eq_nil (hhasParents _), hhasChildren]
    generalize parentScope.resolve emptyDatabase _ eph = parentIds
    generalize childrenScope.resolve emptyDatabase _ eph = childIds
    cases parentIds <;> cases childIds <;>
      simp [load_eq_nil (hparents _ _), load_eq_nil (hchildren _ _), sortByKey, Selection.new]
  rw [findSymbol, hnone]
  rfl
/-- Without rows and roots every computation succeeds. -/
theorem computeSelected_empty (i : Fin n) (parentScope childrenScope : ScopeContext)
    (resolved : LabelResolutions) : ∃ r, computeSelected emptyDatabase t noLayers i parentScope
      childrenScope (.rooted []) resolved = .ok r ∧ r.layerActivations = [] := by
  have hselector : ∀ eph v, ∃ r, computeSelector emptyDatabase (t.command i) parentScope
      childrenScope eph [] v = .ok r := by
    intro eph v
    unfold computeSelector
    split
    · exact ⟨_, rfl⟩
    · unfold selectFromAll
      cases v.kind with
      | type f filterOnly named inherit token =>
        cases filterOnly with
        | true => exact ⟨_, rfl⟩
        | false => exact ⟨_, by simp only [findSymbol_empty]; rfl⟩
      | name f token => exact ⟨_, by simp only [findSymbol_empty]; rfl⟩
      | select => exact ⟨_, by simp only [findSymbol_empty]; rfl⟩
      | forced f => exact ⟨_, by simp only [findSymbol_empty]; rfl⟩
      | _ => exact ⟨_, rfl⟩
  have hselectors : ∀ eph vs, ∃ rs, computeSelectors emptyDatabase (t.command i) parentScope
      childrenScope eph [] vs = .ok rs := by
    intro eph vs
    induction vs with
    | nil => exact ⟨[], rfl⟩
    | cons v vs ih =>
      obtain ⟨r, hr⟩ := hselector eph v
      obtain ⟨rs, hrs⟩ := ih
      exact ⟨(v, r) :: rs, by rw [computeSelectors, hr, hrs]⟩
  have hlayers : ∃ eph', materialise noLayers (t.command i) i (.rooted []) resolved =
      .ok ([], eph') := by
    unfold materialise
    split
    · exact ⟨_, rfl⟩
    · exact ⟨_, rfl⟩
  obtain ⟨eph', hlayers⟩ := hlayers
  obtain ⟨rs, hrs⟩ := hselectors eph' (t.command i).selectors
  unfold computeSelected
  simp only [hlayers, List.map_nil, hrs]
  exact ⟨_, rfl, rfl⟩

/-- A queue whose computations all succeed without layers can be drained. -/
theorem drainPending_succeeds {ps : List (PendingCompute n)} (ctx : ExecutionContext n)
    (h : ∀ p ∈ ps, ∃ r, computeSelected db t layers p.statement p.parentScope p.childrenScope p.eph
      p.resolved = .ok r ∧ r.layerActivations = []) :
    ∃ ctx', drainPending db t layers ps ctx = .ok ctx' ∧ ctx'.eph = ctx.eph := by
  induction ps generalizing ctx with
  | nil => exact ⟨ctx, rfl, rfl⟩
  | cons p ps ih =>
    rw [List.forall_mem_cons] at h
    obtain ⟨⟨r, hr, hnil⟩, hps⟩ := h
    have happly : ∃ ctx₁, r.apply ctx p.statement = .ok ctx₁ ∧ ctx₁.eph = ctx.eph := by
      unfold ComputeResult.apply
      rw [hnil]
      exact ⟨_, rfl, eph_foldl_applySelector ctx r.selections⟩
    obtain ⟨ctx₁, happly, heph⟩ := happly
    obtain ⟨ctx', hdrain, he⟩ := ih ctx₁ hps
    refine ⟨ctx', ?_, he.trans heph⟩
    unfold drainPending at hdrain ⊢
    rw [joinAll, hr]
    cases hjoin : joinAll db t layers ps with
    | error e => simp [hjoin] at hdrain
    | ok rs =>
      simp only [hjoin] at hdrain ⊢
      rw [applyAll, happly]
      exact hdrain

/-- Without rows and roots, the loop ends early only by a panic. -/
theorem queueAllOrPanic_empty (is : List (Fin n)) :
    (∃ p, queueAllOrPanic emptyDatabase t noLayers [] is = .error (.panic p)) ∨
      ∃ st, queueAllOrPanic emptyDatabase t noLayers [] is = .ok st ∧
        st.2.eph = .rooted [] ∧ ∀ p ∈ st.1, p.eph = .rooted [] := by
  induction is using List.reverseRecOn with
  | nil => exact Or.inr ⟨_, rfl, rfl, by simp⟩
  | append_singleton is i ih =>
    rw [queueAllOrPanic_concat]
    rcases ih with ⟨p, hp⟩ | ⟨⟨pending, ctx⟩, hst, heph, hpending⟩
    · rw [hp]
      exact Or.inl ⟨p, rfl⟩
    · rw [hst]
      show (∃ p, queueOrPanic emptyDatabase t noLayers (pending, ctx) i = .error (.panic p)) ∨
        ∃ st, queueOrPanic emptyDatabase t noLayers (pending, ctx) i = .ok st ∧ _
      unfold queueOrPanic
      split
      · obtain ⟨ctx', hdrain, heph'⟩ := drainPending_succeeds ctx fun p hp => by
          rw [hpending p hp]
          exact computeSelected_empty (t := t) p.statement p.parentScope p.childrenScope p.resolved
        rw [hdrain]
        dsimp only
        cases hres : resolveLabelsOrPanic t ctx' i with
        | error id => exact Or.inl ⟨_, rfl⟩
        | ok resolved =>
          refine Or.inr ⟨_, rfl, heph'.trans heph, ?_⟩
          intro p hp
          rw [List.mem_singleton.mp hp]
          exact heph'.trans heph
      · refine Or.inr ⟨_, rfl, heph, ?_⟩
        intro p hp
        rcases List.mem_append.mp hp with hp | hp
        · exact hpending p hp
        · rw [List.mem_singleton.mp hp]
          exact heph

/-! ### The queries whose labels never panic -/

theorem executeLabels_ne_panic_iff {roots : List RootLayer} :
    (∀ p, executeLabels db t layers roots ≠ .error (.panic p)) ↔
      (∀ j, checkUses t t.labelUses ≠ .error (.selfReference j)) ∧
        (checkUses t t.labelUses = .ok () →
          ∀ p, rootsOrPanic db t layers roots ≠ .error (.panic p)) := by
  have hbuild : t.buildDependencyGraph = match checkUses t t.labelUses with
      | .error e => .error e
      | .ok () => .ok t.dependents := by
    unfold StatementTree.buildDependencyGraph
    rw [checkStatements_eq]
    rfl
  unfold executeLabels
  rw [hbuild]
  rcases checkUses t t.labelUses with (l | j) | ⟨⟩
  · simp
  · simp
  · simp

/-- A loop that panics over some of the statements panics. -/
theorem rootsOrPanic_take {roots : List RootLayer} {k : ℕ} {p : LabelPanic n}
    (h : queueAllOrPanic db t layers roots ((List.finRange n).take k) = .error (.panic p)) :
    rootsOrPanic db t layers roots = .error (.panic p) := by
  have hall : queueAllOrPanic db t layers roots (List.finRange n) = .error (.panic p) := by
    rw [← List.take_append_drop k (List.finRange n), queueAllOrPanic, List.foldlM_append]
    rw [queueAllOrPanic] at h
    rw [h]
    rfl
  unfold rootsOrPanic
  rw [hall]

/-- **The queries whose labels never panic**, on any index, with any layers and roots.  A
statement that uses a label of its own comes after a use that stops the build with a
diagnostic; and, where every label is carried, the selectors of the carriers of a label
that a layer refers to are selectors of statements before the layer's. -/
theorem never_panics_iff (t : StatementTree n) :
    (∀ db layers roots p, executeLabels db t layers roots ≠ .error (.panic p)) ↔
      SelfUsesStopped t t.labelUses ∧
        ((∀ u ∈ t.labelUses, t.labeledStatements u.2 ≠ []) → CarriersBefore t) := by
  rw [← checkUses_selfReference]
  constructor
  · intro h
    have hbuild := (executeLabels_ne_panic_iff.mp (h emptyDatabase noLayers [])).1
    refine ⟨hbuild, fun hcarried i l hl j hj v hv => ?_⟩
    have hok : checkUses t t.labelUses = .ok () := by
      cases hcheck : checkUses t t.labelUses with
      | ok => rfl
      | error e => cases e with
        | labelNotFound l => exact absurd hcheck (checkUses_of_carried t hcarried l)
        | selfReference j => exact absurd hcheck (hbuild j)
    have hroots := (executeLabels_ne_panic_iff.mp (h emptyDatabase noLayers [])).2 hok
    -- in a run without errors the turn of the layer's statement succeeds
    rcases queueAllOrPanic_empty (t := t) ((List.finRange n).take (i + 1)) with
      ⟨p, hp⟩ | ⟨st, hst, -⟩
    · exact absurd (rootsOrPanic_take hp) (hroots p)
    · rw [take_finRange_succ, queueAllOrPanic_concat] at hst
      obtain ⟨mid, hmid, hlast⟩ := Fallible.bind_eq_ok.mp hst
      exact carriers_of_queueOrPanic (entered_of_queueAllOrPanic hmid) hlast hl hj hv
  · rintro ⟨hbuild, hbefore⟩ db layers roots
    refine executeLabels_ne_panic_iff.mpr ⟨hbuild, fun hok p => ?_⟩
    have hqueue := queueAllOrPanic_ne_panic db layers
      (hbefore (checkUses_ok_carried t hok)) roots (le_refl n) p
    rw [List.take_of_length_le (by simp)] at hqueue
    unfold rootsOrPanic
    cases hall : queueAllOrPanic db t layers roots (List.finRange n) with
    | error e =>
      intro h
      obtain rfl : e = .panic p := Except.error.inj h
      exact hqueue hall
    | ok st =>
      dsimp only
      split
      · intro h
        cases h
      · intro h
        cases h

/-- `@x "a" #x`: the statement uses its own label. -/
def selfUseTree : StatementTree 1 :=
  .ofChecked
    (fun _ => .plain [.plain 0 (.label ['x']), .plain 1 (.name (nameFilter ['a']) none),
      .plain 2 (.use ['x'] false)])
    (fun _ => none) ⟨true, true⟩ (by decide)

/-- `layer { ephemeral_instance(symbol_id="@x", …) } ; @x "a"`: the label comes later. -/
def laterLabelTree : StatementTree 2 :=
  .ofChecked
    (fun i => match i with
      | 0 => .plain [.plain 0 (.layer [['x']] false)]
      | 1 => .plain [.plain 1 (.label ['x']), .plain 2 (.name (nameFilter ['a']) none)])
    (fun _ => none) ⟨true, true⟩ (by decide)

/-- **Labels panic** on a statement that uses its own label, and on a layer that refers to a
label of a later statement. -/
theorem panics_of_self_use :
    executeLabels callDatabase selfUseTree noLayers [⟨1, 1⟩] =
        .error (.panic (.alreadyBorrowed 0)) ∧
      executeLabels callDatabase laterLabelTree noLayers [⟨1, 1⟩] =
        .error (.panic (.notAdded 2)) :=
  ⟨by rfl, by rfl⟩

end Askl
