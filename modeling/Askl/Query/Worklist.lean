import Askl.Query.Notify
import Askl.Library.Runs

/-!
# The worklist

The statements with a selection wait to notify their dependents.  One of them is
popped, its dependents are notified in turn, and those whose selection changed are
scheduled again, until nobody waits.  The source pops a statement with the fewest
nodes; the step relation allows any of them.

## Main definitions

* `updateState` — what a pop does to the statement's own selectors.
* `schedule`, `swapRemove`, `popNext` — the operations of `Worklist`.
* `WorkState` — the context, the statements waiting and the notifications under way.
* `Step` — one pop, in any order, or one notification.
* `advance`, `runWorklist` — the source's own run.

## Main results

* `step_of_advance` — the source's run is one of the runs.
* `WorkState.Consistent` — nobody waits twice, and the notifications under way belong
  to the graph; kept by `Consistent.step`.
* `exists_step_or_fails` — a run goes on until it has finished or failed.
-/

namespace Askl

variable {n : ℕ} (db : Database) (t : StatementTree n)

/-! ### The pop -/

/-- `update_state` of one selector: a forced use takes up the matches put aside. -/
def updateSelector (ctx : ExecutionContext n) (v : Verb) : ExecutionContext n :=
  if v.kind.isForcedUse then match ctx.selection v.id, ctx.cell v.id with
    | none, some s => ctx.setSelection v.id (some s)
    | _, _ => ctx
  else ctx

/-- `update_state` of every selector of a statement. -/
def updateState (ctx : ExecutionContext n) (i : Fin n) : ExecutionContext n :=
  (t.selectors i).foldl updateSelector ctx

/-- `Worklist::schedule`. -/
def schedule (worklist : List (Fin n)) (i : Fin n) : List (Fin n) :=
  if i ∈ worklist then worklist else worklist ++ [i]

/-- `Vec::swap_remove`: the last element takes the place of the removed one. -/
def swapRemove (worklist : List (Fin n)) (k : ℕ) : List (Fin n) :=
  match worklist.getLast? with
  | none => []
  | some last => (worklist.set k last).dropLast

/-- The position of the first statement with the lowest priority. -/
def minPriority (ctx : ExecutionContext n) : List (Fin n) → Option ℕ
  | [] => none
  | i :: is => match minPriority ctx is with
    | none => some 0
    | some k => match is[k]? with
      | none => some 0
      | some j => if propagationPriority t ctx j < propagationPriority t ctx i then some (k + 1)
        else some 0

/-- `Worklist::pop_next`: the position popped, and the statement there. -/
def popNext (ctx : ExecutionContext n) (worklist : List (Fin n)) : Option (ℕ × Fin n) :=
  (minPriority t ctx worklist).bind fun k => worklist[k]?.map fun i => (k, i)

/-! ### States and steps -/

/-- The state of `run_worklist`: the statements waiting, and what the popped one still
has to notify. -/
structure WorkState (n : ℕ) where
  ctx : ExecutionContext n
  worklist : List (Fin n)
  queue : List (Fin n × StatementDependent n)

/-- Nobody waits and no notification is under way. -/
def WorkState.Finished (st : WorkState n) : Prop := st.worklist = [] ∧ st.queue = []

/-- The state before the first pop: the statements with a selection wait, in visiting
order. -/
def seed (ctx : ExecutionContext n) : WorkState n where
  ctx := ctx
  worklist := (List.finRange n).filter (hasSelection t ctx)
  queue := []

/-- The notifications a popped statement has to send. -/
def notifications (ctx : ExecutionContext n) (i : Fin n) : List (Fin n × StatementDependent n) :=
  if hasSelection t ctx i then (t.dependents i).map fun d => (i, d) else []

/-- The state after the statement `i` at a position has been popped. -/
def WorkState.pop (st : WorkState n) (k : ℕ) (i : Fin n) : WorkState n where
  ctx := updateState t st.ctx i
  worklist := swapRemove st.worklist k
  queue := notifications t (updateState t st.ctx i) i

/-- The statements waiting after a notification. -/
def scheduleIf (changed : Bool) (worklist : List (Fin n)) (i : Fin n) : List (Fin n) :=
  if changed then schedule worklist i else worklist

/-- One step of `run_worklist`: any waiting statement is popped once no notification is
under way, and the notifications are sent in order. -/
inductive Step : WorkState n → WorkState n → Prop
  | pop {st : WorkState n} {k : ℕ} {i : Fin n} (hqueue : st.queue = [])
      (hget : st.worklist[k]? = some i) : Step st (st.pop t k i)
  | notify {ctx ctx' : ExecutionContext n} {worklist : List (Fin n)} {i : Fin n}
      {d : StatementDependent n} {rest : List (Fin n × StatementDependent n)} {changed : Bool}
      (hnotify : notify db t ctx i d = .ok (changed, ctx')) :
      Step ⟨ctx, worklist, (i, d) :: rest⟩
        ⟨ctx', scheduleIf changed worklist d.statement, rest⟩

/-- The notification under way fails with an error. -/
def WorkState.Fails (st : WorkState n) (e : ExecError) : Prop :=
  ∃ i d rest, st.queue = (i, d) :: rest ∧ Askl.notify db t st.ctx i d = .error e

/-- One step of the source's own run. -/
def advance (st : WorkState n) : WorkState n ⊕ Except ExecError (ExecutionContext n) :=
  match st.queue with
  | (i, d) :: rest => match notify db t st.ctx i d with
    | .error e => .inr (.error e)
    | .ok (changed, ctx') => .inl ⟨ctx', scheduleIf changed st.worklist d.statement, rest⟩
  | [] => match popNext t st.ctx st.worklist with
    | none => .inr (.ok st.ctx)
    | some (k, i) => .inl (st.pop t k i)

/-- `run_worklist`, with a bound on its steps. -/
def runWorklist (fuel : ℕ) (ctx : ExecutionContext n) :
    Option (Except ExecError (ExecutionContext n)) :=
  Runs.loop (advance db t) fuel (seed t ctx)

/-- The source's run as long as its states meet a guard; a state that does not stops it
without a result. -/
def advanceIf (guard : WorkState n → Bool) (st : WorkState n) :
    WorkState n ⊕ Option (Except ExecError (ExecutionContext n)) :=
  if guard st then match advance db t st with
    | .inl st' => .inl st'
    | .inr r => .inr (some r)
  else .inr none

/-- `run_worklist` under a guard. -/
def runWorklistIf (guard : WorkState n → Bool) (fuel : ℕ) (ctx : ExecutionContext n) :
    Option (Option (Except ExecError (ExecutionContext n))) :=
  Runs.loop (advanceIf db t guard) fuel (seed t ctx)

/-! ### The operations -/

@[simp] theorem mem_schedule {worklist : List (Fin n)} {i j : Fin n} :
    j ∈ schedule worklist i ↔ j ∈ worklist ∨ j = i := by
  unfold schedule
  split
  · next h => exact ⟨Or.inl, fun hj => hj.elim id fun hji => hji ▸ h⟩
  · simp

theorem nodup_schedule {worklist : List (Fin n)} {i : Fin n} (h : worklist.Nodup) :
    (schedule worklist i).Nodup := by
  unfold schedule
  split
  · exact h
  · next hi =>
    rw [← List.concat_eq_append]
    exact h.concat hi

theorem mem_scheduleIf {changed : Bool} {worklist : List (Fin n)} {i j : Fin n} :
    j ∈ scheduleIf changed worklist i ↔ j ∈ worklist ∨ changed = true ∧ j = i := by
  cases changed <;> simp [scheduleIf]

theorem nodup_scheduleIf {changed : Bool} {worklist : List (Fin n)} {i : Fin n}
    (h : worklist.Nodup) : (scheduleIf changed worklist i).Nodup := by
  cases changed
  · exact h
  · exact nodup_schedule h

/-- A removal by swapping takes out the element at the position. -/
theorem perm_cons_swapRemove {worklist : List (Fin n)} {k : ℕ} {i : Fin n}
    (h : worklist[k]? = some i) : worklist.Perm (i :: swapRemove worklist k) := by
  rcases List.eq_nil_or_concat' worklist with rfl | ⟨init, last, rfl⟩
  · simp at h
  · obtain ⟨hk, hi⟩ := List.getElem?_eq_some_iff.mp h
    simp only [List.length_append, List.length_singleton] at hk
    have hrm : swapRemove (init ++ [last]) k = ((init ++ [last]).set k last).dropLast := by
      simp [swapRemove]
    rw [hrm]
    rcases Nat.lt_succ_iff_lt_or_eq.mp hk with hlt | rfl
    · -- the last element fills the gap
      rw [List.getElem_append_left hlt] at hi
      rw [List.set_append_left k last hlt, List.dropLast_concat,
        List.set_eq_take_append_cons_drop, if_pos hlt]
      have hsplit : init = init.take k ++ i :: init.drop (k + 1) := by
        rw [← hi, List.cons_getElem_drop_succ, List.take_append_drop]
      calc init ++ [last]
          = (init.take k ++ i :: init.drop (k + 1)) ++ [last] := by rw [← hsplit]
        _ = init.take k ++ i :: (init.drop (k + 1) ++ [last]) := by simp
        List.Perm _ (i :: (init.take k ++ (init.drop (k + 1) ++ [last]))) := List.perm_middle
        List.Perm _ (i :: (init.take k ++ last :: init.drop (k + 1))) :=
          ((List.perm_append_singleton last _).append_left _).cons i
    · obtain rfl : last = i := by simpa using hi
      simp

theorem mem_swapRemove {worklist : List (Fin n)} {k : ℕ} {i j : Fin n}
    (hnd : worklist.Nodup) (h : worklist[k]? = some i) :
    j ∈ swapRemove worklist k ↔ j ∈ worklist ∧ j ≠ i := by
  have hperm := perm_cons_swapRemove h
  have hnd' := hperm.nodup_iff.mp hnd
  rw [hperm.mem_iff, List.mem_cons]
  constructor
  · exact fun hj => ⟨Or.inr hj, fun hji => (List.nodup_cons.mp hnd').1 (hji ▸ hj)⟩
  · rintro ⟨rfl | hj, hne⟩
    · exact absurd rfl hne
    · exact hj

theorem nodup_swapRemove {worklist : List (Fin n)} {k : ℕ} {i : Fin n}
    (hnd : worklist.Nodup) (h : worklist[k]? = some i) : (swapRemove worklist k).Nodup :=
  (List.nodup_cons.mp ((perm_cons_swapRemove h).nodup_iff.mp hnd)).2

/-- A list that is not empty has a position of lowest priority. -/
theorem exists_minPriority (ctx : ExecutionContext n) {worklist : List (Fin n)}
    (h : worklist ≠ []) : ∃ k i, minPriority t ctx worklist = some k ∧ worklist[k]? = some i ∧
      ∀ j ∈ worklist, propagationPriority t ctx i ≤ propagationPriority t ctx j := by
  induction worklist with
  | nil => exact absurd rfl h
  | cons i is ih =>
    by_cases hnil : is = []
    · subst hnil
      exact ⟨0, i, rfl, rfl, by simp⟩
    · obtain ⟨k, j, hk, hj, hmin⟩ := ih hnil
      by_cases hlt : propagationPriority t ctx j < propagationPriority t ctx i
      · refine ⟨k + 1, j, by simp [minPriority, hk, hj, hlt], by simpa using hj, ?_⟩
        simpa using ⟨hlt.le, hmin⟩
      · refine ⟨0, i, by simp [minPriority, hk, hj, hlt], rfl, ?_⟩
        simpa using fun j' hj' => (not_lt.mp hlt).trans (hmin j' hj')

/-- `pop_next` finds a waiting statement that none of the others precedes. -/
theorem exists_popNext (ctx : ExecutionContext n) {worklist : List (Fin n)}
    (h : worklist ≠ []) : ∃ k i, popNext t ctx worklist = some (k, i) ∧
      ∀ j ∈ worklist, propagationPriority t ctx i ≤ propagationPriority t ctx j := by
  obtain ⟨k, i, hk, hi, hmin⟩ := exists_minPriority t ctx h
  exact ⟨k, i, by simp [popNext, hk, hi], hmin⟩

theorem getElem?_of_popNext {ctx : ExecutionContext n} {worklist : List (Fin n)} {k : ℕ}
    {i : Fin n} (h : popNext t ctx worklist = some (k, i)) : worklist[k]? = some i := by
  obtain ⟨k', -, hk'⟩ := Option.bind_eq_some_iff.mp h
  obtain ⟨j, hj, hkj⟩ := Option.map_eq_some_iff.mp hk'
  obtain ⟨rfl, rfl⟩ := Prod.mk.inj hkj
  exact hj

/-! ### The source's run -/

/-- A step of the source's run is one of the steps. -/
theorem step_of_advance {st st' : WorkState n} (h : advance db t st = .inl st') :
    Step db t st st' := by
  obtain ⟨ctx, worklist, queue⟩ := st
  cases queue with
  | nil =>
    cases hpop : popNext t ctx worklist with
    | none => simp [advance, hpop] at h
    | some r =>
      obtain rfl : (WorkState.mk ctx worklist []).pop t r.1 r.2 = st' := by
        simpa [advance, hpop] using h
      exact .pop rfl (getElem?_of_popNext t hpop)
  | cons e rest =>
    cases hn : notify db t ctx e.1 e.2 with
    | error e' => simp [advance, hn] at h
    | ok r =>
      obtain rfl : WorkState.mk r.2 (scheduleIf r.1 worklist e.2.statement) rest = st' := by
        simpa [advance, hn] using h
      exact .notify hn

/-- The source's run stops with its context when nobody waits, and with an error when a
notification fails. -/
theorem finished_or_fails_of_advance {st : WorkState n}
    {r : Except ExecError (ExecutionContext n)} (h : advance db t st = .inr r) :
    (st.Finished ∧ r = .ok st.ctx) ∨ ∃ e, st.Fails db t e ∧ r = .error e := by
  obtain ⟨ctx, worklist, queue⟩ := st
  cases queue with
  | nil =>
    left
    by_cases hnil : worklist = []
    · subst hnil
      exact ⟨⟨rfl, rfl⟩, by simpa [advance, popNext, minPriority] using h.symm⟩
    · obtain ⟨k, i, hpop, -⟩ := exists_popNext t ctx hnil
      simp [advance, hpop] at h
  | cons e rest =>
    right
    cases hn : notify db t ctx e.1 e.2 with
    | error e' =>
      exact ⟨e', ⟨e.1, e.2, rest, rfl, hn⟩, by simpa [advance, hn] using h.symm⟩
    | ok r => simp [advance, hn] at h

/-- **The source's run is one of the runs**: it ends in a state that is reached in some
order of pops, and that has finished or fails. -/
theorem exists_run_of_runWorklist {fuel : ℕ} {ctx : ExecutionContext n}
    {r : Except ExecError (ExecutionContext n)} (h : runWorklist db t fuel ctx = some r) :
    ∃ st, Relation.ReflTransGen (Step db t) (seed t ctx) st ∧
      ((st.Finished ∧ r = .ok st.ctx) ∨ ∃ e, st.Fails db t e ∧ r = .error e) := by
  obtain ⟨st, hrun, hst⟩ := Runs.exists_run_of_loop h
  have hle : (fun st st' => advance db t st = .inl st') ≤ Step db t :=
    fun _ _ h => step_of_advance db t h
  exact ⟨st, Relation.ReflTransGen.mono hle _ _ hrun, finished_or_fails_of_advance db t hst⟩

/-- The source's run under a guard is one of the guarded runs. -/
theorem exists_run_of_runWorklistIf {guard : WorkState n → Bool} {fuel : ℕ}
    {ctx ctx' : ExecutionContext n}
    (h : runWorklistIf db t guard fuel ctx = some (some (.ok ctx'))) :
    ∃ st, Relation.ReflTransGen
      (Runs.Guarded (fun st st' => advance db t st = .inl st') fun st => guard st = true)
      (seed t ctx) st ∧ st.Finished ∧ st.ctx = ctx' := by
  obtain ⟨st, hrun, hst⟩ := Runs.exists_run_of_loop h
  have hle : (fun st st' => advanceIf db t guard st = .inl st') ≤
      Runs.Guarded (fun st st' => advance db t st = .inl st') fun st => guard st = true := by
    intro st st' hstep
    unfold advanceIf at hstep
    split at hstep
    · next hguard =>
      cases hadv : advance db t st with
      | inl st'' =>
        rw [hadv] at hstep
        obtain rfl := Sum.inl.inj hstep
        exact ⟨hguard, hadv⟩
      | inr r => simp [hadv] at hstep
    · cases hstep
  refine ⟨st, Relation.ReflTransGen.mono hle _ _ hrun, ?_⟩
  unfold advanceIf at hst
  split at hst
  · cases hadv : advance db t st with
    | inl st'' => simp [hadv] at hst
    | inr r =>
      rw [hadv] at hst
      obtain rfl : r = .ok ctx' := Option.some.inj (Sum.inr.inj hst)
      rcases finished_or_fails_of_advance db t hadv with ⟨hfin, heq⟩ | ⟨e, -, heq⟩
      · exact ⟨hfin, (Except.ok.inj heq).symm⟩
      · cases heq
  · cases hst

/-- A run goes on until it has finished or fails. -/
theorem exists_step_or_fails {st : WorkState n} (h : ¬st.Finished) :
    (∃ st', Step db t st st') ∨ ∃ e, st.Fails db t e := by
  cases hadv : advance db t st with
  | inl st' => exact Or.inl ⟨st', step_of_advance db t hadv⟩
  | inr r =>
    rcases finished_or_fails_of_advance db t hadv with ⟨hfin, -⟩ | ⟨e, he, -⟩
    · exact absurd hfin h
    · exact Or.inr ⟨e, he⟩

/-- A result that was observed is a result. -/
theorem exists_ok_of_map {α β ε : Type*} {x : Option (Except ε α)} {f : α → β} {b : β}
    (h : x.map (fun r => r.toOption.map f) = some (some b)) :
    ∃ a, x = some (.ok a) ∧ f a = b := by
  obtain ⟨r, rfl, hr⟩ := Option.map_eq_some_iff.mp h
  cases r with
  | error e => cases hr
  | ok a => exact ⟨a, rfl, Option.some.inj hr⟩

/-! ### Consistent states -/

/-- Nobody waits twice, and the notifications under way come from one statement and
belong to the graph. -/
structure WorkState.Consistent (st : WorkState n) : Prop where
  nodup : st.worklist.Nodup
  mem_dependents : ∀ p ∈ st.queue, p.2 ∈ t.dependents p.1

theorem consistent_seed (ctx : ExecutionContext n) : (seed t ctx).Consistent t where
  nodup := (List.nodup_finRange n).filter _
  mem_dependents := by simp [seed]

theorem mem_notifications {ctx : ExecutionContext n} {i : Fin n}
    {p : Fin n × StatementDependent n} (h : p ∈ notifications t ctx i) :
    p.1 = i ∧ p.2 ∈ t.dependents i ∧ hasSelection t ctx i = true := by
  unfold notifications at h
  split at h
  · next hsel =>
    obtain ⟨d, hd, rfl⟩ := List.mem_map.mp h
    exact ⟨rfl, hd, hsel⟩
  · simp at h

variable {db t}

theorem WorkState.Consistent.pop {st : WorkState n} (h : st.Consistent t) {k : ℕ} {i : Fin n}
    (hget : st.worklist[k]? = some i) : (st.pop t k i).Consistent t where
  nodup := nodup_swapRemove h.nodup hget
  mem_dependents p hp := by
    obtain ⟨hi, hd, -⟩ := mem_notifications t hp
    rwa [hi]

theorem WorkState.Consistent.step {st st' : WorkState n} (h : st.Consistent t)
    (hstep : Step db t st st') : st'.Consistent t := by
  cases hstep with
  | pop hqueue hget => exact h.pop hget
  | notify hnotify =>
    exact ⟨nodup_scheduleIf h.nodup, fun p hp => h.mem_dependents p (List.mem_cons_of_mem _ hp)⟩

theorem consistent_of_run {ctx : ExecutionContext n} {st : WorkState n}
    (hrun : Relation.ReflTransGen (Step db t) (seed t ctx) st) : st.Consistent t :=
  Runs.invariant_of_run (fun h hstep => h.step hstep) hrun (consistent_seed t ctx)

/-! ### What a pop changes -/

/-- Only a forced use that has none takes up a selection. -/
theorem updateSelector_selection (ctx : ExecutionContext n) (v : Verb) (id : SelectorId) :
    (updateSelector ctx v).selection id =
      if id = v.id ∧ v.kind.isForcedUse = true ∧ ctx.selection id = none then ctx.cell id
      else ctx.selection id := by
  unfold updateSelector
  by_cases hf : v.kind.isForcedUse = true
  · simp only [hf, if_true, true_and]
    by_cases hid : id = v.id
    · subst hid
      cases hs : ctx.selection v.id with
      | some s => simp [hs]
      | none => cases ctx.cell v.id <;> simp [hs]
    · cases hs : ctx.selection v.id with
      | some s => simp [hid]
      | none => cases ctx.cell v.id <;> simp [hid]
  · simp [hf]

/-- What an entry in the registry leaves as it is, an update of a selector does. -/
theorem updateSelector_keeps {β : Type*} {field : ExecutionContext n → β}
    (h : ∀ ctx id s, field (ctx.setSelection id s) = field ctx) (ctx : ExecutionContext n)
    (v : Verb) : field (updateSelector ctx v) = field ctx := by
  unfold updateSelector
  split
  · split
    · exact h _ _ _
    · rfl
  · rfl

/-- And so does the update of a statement. -/
theorem updateState_keeps {β : Type*} {field : ExecutionContext n → β}
    (h : ∀ ctx id s, field (ctx.setSelection id s) = field ctx) (ctx : ExecutionContext n)
    (i : Fin n) : field (updateState t ctx i) = field ctx := by
  unfold updateState
  induction t.selectors i generalizing ctx with
  | nil => rfl
  | cons v vs ih => rw [List.foldl_cons, ih, updateSelector_keeps h]

@[simp] theorem updateSelector_cell (ctx : ExecutionContext n) (v : Verb) :
    (updateSelector ctx v).cell = ctx.cell := updateSelector_keeps (fun _ _ _ => rfl) ctx v

@[simp] theorem updateSelector_eph (ctx : ExecutionContext n) (v : Verb) :
    (updateSelector ctx v).eph = ctx.eph := updateSelector_keeps (fun _ _ _ => rfl) ctx v

@[simp] theorem updateSelector_layerActivations (ctx : ExecutionContext n) (v : Verb) :
    (updateSelector ctx v).layerActivations = ctx.layerActivations :=
  updateSelector_keeps (fun _ _ _ => rfl) ctx v

@[simp] theorem updateState_cell (ctx : ExecutionContext n) (i : Fin n) :
    (updateState t ctx i).cell = ctx.cell := updateState_keeps (fun _ _ _ => rfl) ctx i

@[simp] theorem updateState_eph (ctx : ExecutionContext n) (i : Fin n) :
    (updateState t ctx i).eph = ctx.eph := updateState_keeps (fun _ _ _ => rfl) ctx i

@[simp] theorem updateState_layerActivations (ctx : ExecutionContext n) (i : Fin n) :
    (updateState t ctx i).layerActivations = ctx.layerActivations :=
  updateState_keeps (fun _ _ _ => rfl) ctx i

/-- A pop gives the forced uses of its statement that have none the selection put
aside, and changes nothing else. -/
theorem updateState_selection (ctx : ExecutionContext n) (i : Fin n) (id : SelectorId) :
    (updateState t ctx i).selection id =
      if (∃ v ∈ t.selectors i, v.id = id ∧ v.kind.isForcedUse = true) ∧
        ctx.selection id = none then ctx.cell id else ctx.selection id := by
  unfold updateState
  induction t.selectors i generalizing ctx with
  | nil => simp
  | cons v vs ih =>
    rw [List.foldl_cons, ih, updateSelector_cell]
    by_cases hsel : ctx.selection id = none
    · by_cases hv : id = v.id ∧ v.kind.isForcedUse = true
      · obtain ⟨rfl, hf⟩ := hv
        have hstep : (updateSelector ctx v).selection v.id = ctx.cell v.id := by
          rw [updateSelector_selection, if_pos ⟨rfl, hf, hsel⟩]
        rw [hstep]
        cases hc : ctx.cell v.id <;> simp [hsel, hf]
      · have hv' : ¬(v.id = id ∧ v.kind.isForcedUse = true) := fun h => hv ⟨h.1.symm, h.2⟩
        have hstep : (updateSelector ctx v).selection id = none := by
          rw [updateSelector_selection, if_neg (fun h => hv ⟨h.1, h.2.1⟩), hsel]
        simp [hstep, hsel, hv']
    · simp [updateSelector_selection, hsel]

/-- **A step takes no selection away.** -/
theorem Step.isSome_mono {st st' : WorkState n} (hstep : Step db t st st') {id : SelectorId}
    (h : (st.ctx.selection id).isSome = true) : (st'.ctx.selection id).isSome = true := by
  cases hstep with
  | @pop st k i hqueue hget =>
    have hne : ¬((∃ v ∈ t.selectors i, v.id = id ∧ v.kind.isForcedUse = true) ∧
        st.ctx.selection id = none) := by
      rintro ⟨-, hnone⟩
      simp [hnone] at h
    have hsel : (st.pop t k i).ctx.selection id = st.ctx.selection id :=
      (updateState_selection st.ctx i id).trans (if_neg hne)
    rwa [hsel]
  | notify hnotify => exact notify_isSome_mono hnotify h

/-- Without forced uses a pop changes no selection. -/
theorem updateState_eq_self {i : Fin n}
    (h : ∀ v ∈ t.selectors i, v.kind.isForcedUse = false) (ctx : ExecutionContext n) :
    updateState t ctx i = ctx := by
  refine List.foldlRecOn (t.selectors i) updateSelector (motive := fun c => c = ctx) rfl
    fun c hc v hv => ?_
  rw [updateSelector, h v hv, hc]
  simp

end Askl
