import Mathlib.Data.Set.Lattice
import Mathlib.Logic.Relation
import Mathlib.Order.Bounds.Basic

/-!
# Chaotic iteration of shrinking constraints

A finite or infinite family of cells holds sets, and owners take turns, in any
order, at firing the constraints they feed.  A constraint cuts its target cells
down to the elements its support admits, and whoever owns a cut cell becomes
pending again.  The result of such a run does not depend on the order of the
turns: it is the greatest family below the start that satisfies every constraint
some turn can ever fire.

## Main definitions

* `System` — cells, owners, constraints and their supports.
* `System.Satisfies` — a family of sets is stable under a constraint.
* `System.restrict` — one firing of a constraint.
* `System.Config`, `System.Step` — the state of a run, and its two kinds of step.
* `System.Active` — an owner whose turn is due, or who owns a cell that shrank.

## Main results

* `System.satisfies_of_finished` — a finished run satisfies every constraint of an
  active owner.
* `System.le_value_of_run` — a run never drops below a family that satisfies them.
* `System.finished_value_eq` — **confluence: two finished runs end alike.**
* `System.isGreatest_of_finished` — **a finished run from all owners pending ends
  at the greatest family that satisfies every constraint.**
-/

namespace Chaotic

open Relation

/-- Owners `σ` of cells `κ`, and the constraints `χ` they fire on sets of `α`. -/
structure System (σ κ χ α : Type*) where
  /-- The cells an owner owns. -/
  cells : σ → Set κ
  /-- The constraints an owner fires in its turn, in order. -/
  constraints : σ → List χ
  /-- The owner of the cells a constraint cuts. -/
  target : χ → σ
  /-- The cells a constraint cuts. -/
  targetCells : χ → Set κ
  /-- The elements a constraint admits. -/
  support : χ → (κ → Set α) → Set α
  targetCells_subset : ∀ c, targetCells c ⊆ cells (target c)
  cells_unique : ∀ {k s t}, k ∈ cells s → k ∈ cells t → s = t
  target_ne : ∀ {s c}, c ∈ constraints s → target c ≠ s
  support_mono : ∀ c {X Y : κ → Set α}, X ≤ Y → support c X ⊆ support c Y
  /-- A support reads only the cells of the owners that fire it. -/
  support_congr : ∀ c {X Y : κ → Set α},
    (∀ s, c ∈ constraints s → ∀ k ∈ cells s, X k = Y k) → support c X = support c Y

namespace System

variable {σ κ χ α : Type*} (S : System σ κ χ α)

/-- A family is stable under a constraint. -/
def Satisfies (X : κ → Set α) (c : χ) : Prop := ∀ k ∈ S.targetCells c, X k ⊆ S.support c X

/-- One firing: the target cells keep what the support admits. -/
def restrict (X : κ → Set α) (c : χ) : κ → Set α :=
  fun k => {a | a ∈ X k ∧ (k ∈ S.targetCells c → a ∈ S.support c X)}

/-- The state of a run: the cells, the owners whose turn is due, and the
constraints left in the turn under way. -/
structure Config (σ κ χ α : Type*) where
  value : κ → Set α
  pending : Set σ
  queue : List χ

/-- A run has finished when no turn is due and none is under way. -/
def Config.Finished (c : Config σ κ χ α) : Prop := c.pending = ∅ ∧ c.queue = []

/-- The steps of a run: any pending owner takes its turn, and a turn fires its
constraints one by one. -/
inductive Step : Config σ κ χ α → Config σ κ χ α → Prop
  | pop {X : κ → Set α} {W : Set σ} {s : σ} (hs : s ∈ W) :
      Step ⟨X, W, []⟩ ⟨X, W \ {s}, S.constraints s⟩
  | fire {X : κ → Set α} {W : Set σ} {c : χ} {q : List χ} :
      Step ⟨X, W, c :: q⟩
        ⟨S.restrict X c, W ∪ {s | s = S.target c ∧ S.restrict X c ≠ X}, q⟩

/-! ### One firing -/

theorem restrict_le (X : κ → Set α) (c : χ) : S.restrict X c ≤ X := fun _ _ ha => ha.1

/-- A cell that a firing changes belongs to the target of the constraint. -/
theorem mem_targetCells_of_restrict_ne {X : κ → Set α} {c : χ} {k : κ}
    (h : S.restrict X c k ≠ X k) : k ∈ S.targetCells c := by
  by_contra hk
  exact h (Set.ext fun a => ⟨fun ha => ha.1, fun ha => ⟨ha, fun hk' => absurd hk' hk⟩⟩)

/-- The owner of a cell that a firing changes is the target of the constraint. -/
theorem eq_target_of_restrict_ne {X : κ → Set α} {c : χ} {k : κ} {s : σ}
    (hk : k ∈ S.cells s) (h : S.restrict X c k ≠ X k) : s = S.target c :=
  S.cells_unique hk (S.targetCells_subset c (S.mem_targetCells_of_restrict_ne h))

/-- A firing makes its own constraint hold. -/
theorem satisfies_restrict (X : κ → Set α) (c : χ) : S.Satisfies (S.restrict X c) c := by
  have hsupp : S.support c (S.restrict X c) = S.support c X := by
    refine S.support_congr c fun s' hs' k hk => ?_
    by_contra hne
    exact S.target_ne hs' (S.eq_target_of_restrict_ne hk hne).symm
  intro k hk a ha
  rw [hsupp]
  exact ha.2 hk

/-- A constraint that held still holds after a firing, unless the firing changed a
cell of an owner that fires it. -/
theorem Satisfies.restrict {X : κ → Set α} {c d : χ} (h : S.Satisfies X d)
    (hd : ∀ s, d ∈ S.constraints s → ∀ k ∈ S.cells s, S.restrict X c k = X k) :
    S.Satisfies (S.restrict X c) d := by
  intro k hk a ha
  rw [S.support_congr d hd]
  exact h k hk ha.1

/-! ### Runs -/

/-- An owner is active for a family when its turn was due at the start, or when a
cell of its own differs from the start. -/
def Active (start : Config σ κ χ α) (X : κ → Set α) (s : σ) : Prop :=
  s ∈ start.pending ∨ ∃ k ∈ S.cells s, X k ≠ start.value k

/-- What a run keeps: values below the start, and every constraint of an active
owner is due, under way or satisfied. -/
structure Settled (start c : Config σ κ χ α) : Prop where
  value_le : c.value ≤ start.value
  settled : ∀ s d, d ∈ S.constraints s → S.Active start c.value s →
    (∃ t ∈ c.pending, d ∈ S.constraints t) ∨ d ∈ c.queue ∨ S.Satisfies c.value d

theorem settled_start (start : Config σ κ χ α) : S.Settled start start where
  value_le := le_rfl
  settled := by
    rintro s d hd (hs | ⟨k, -, hk⟩)
    · exact Or.inl ⟨s, hs, hd⟩
    · exact absurd rfl hk

theorem Settled.step {start c c' : Config σ κ χ α} (h : S.Settled start c)
    (hstep : S.Step c c') : S.Settled start c' := by
  cases hstep with
  | @pop X W s hs =>
    refine ⟨h.value_le, fun t d hd hact => ?_⟩
    rcases h.settled t d hd hact with ⟨u, hu, hdu⟩ | hq | hsat
    · by_cases hus : u = s
      · exact Or.inr (Or.inl (hus ▸ hdu))
      · exact Or.inl ⟨u, ⟨hu, hus⟩, hdu⟩
    · exact absurd hq (by simp)
    · exact Or.inr (Or.inr hsat)
  | @fire X W c q =>
    refine ⟨(S.restrict_le X c).trans h.value_le, fun t d hd hact => ?_⟩
    by_cases hchg : ∃ u, d ∈ S.constraints u ∧ ∃ k ∈ S.cells u, S.restrict X c k ≠ X k
    · -- an owner of `d` lost elements, so it has been scheduled
      obtain ⟨u, hdu, k, hk, hne⟩ := hchg
      exact Or.inl ⟨u, Or.inr ⟨S.eq_target_of_restrict_ne hk hne,
        fun heq => hne (congrFun heq k)⟩, hdu⟩
    · push Not at hchg
      have hact' : S.Active start X t := by
        rcases hact with ht | ⟨k, hk, hne⟩
        · exact Or.inl ht
        · refine Or.inr ⟨k, hk, ?_⟩
          rwa [← hchg t hd k hk]
      rcases h.settled t d hd hact' with ⟨u, hu, hdu⟩ | hq | hsat
      · exact Or.inl ⟨u, Or.inl hu, hdu⟩
      · rcases List.mem_cons.mp hq with rfl | hq
        · exact Or.inr (Or.inr (S.satisfies_restrict X d))
        · exact Or.inr (Or.inl hq)
      · exact Or.inr (Or.inr (Satisfies.restrict S hsat hchg))

theorem settled_run {start c : Config σ κ χ α}
    (hrun : ReflTransGen S.Step start c) : S.Settled start c := by
  induction hrun with
  | refl => exact S.settled_start start
  | tail _ hstep ih => exact ih.step S hstep

/-- A finished run satisfies every constraint of an active owner. -/
theorem satisfies_of_finished {start c : Config σ κ χ α}
    (hrun : ReflTransGen S.Step start c) (hfin : c.Finished) {s : σ} {d : χ}
    (hd : d ∈ S.constraints s) (hact : S.Active start c.value s) : S.Satisfies c.value d := by
  rcases (S.settled_run hrun).settled s d hd hact with ⟨t, ht, -⟩ | hd' | hsat
  · rw [hfin.1] at ht
    exact absurd ht (Set.notMem_empty t)
  · rw [hfin.2] at hd'
    exact absurd hd' (by simp)
  · exact hsat

/-- What keeps a family below a run: it stays below the values, and the constraints
that are due or under way are ones it satisfies. -/
structure Below (start : Config σ κ χ α) (Y : κ → Set α) (c : Config σ κ χ α) : Prop where
  le_value : Y ≤ c.value
  value_le : c.value ≤ start.value
  pending_active : ∀ s ∈ c.pending, S.Active start Y s
  queue_satisfied : ∀ d ∈ c.queue, S.Satisfies Y d

theorem Below.step {start c c' : Config σ κ χ α} {Y : κ → Set α}
    (hY : ∀ s d, d ∈ S.constraints s → S.Active start Y s → S.Satisfies Y d)
    (h : S.Below start Y c) (hstep : S.Step c c') : S.Below start Y c' := by
  cases hstep with
  | @pop X W s hs =>
    exact ⟨h.le_value, h.value_le, fun t ht => h.pending_active t ht.1,
      fun d hd => hY s d hd (h.pending_active s hs)⟩
  | @fire X W c q =>
    have hle : Y ≤ S.restrict X c := by
      intro k a ha
      refine ⟨h.le_value k ha, fun hk => ?_⟩
      exact S.support_mono c h.le_value (h.queue_satisfied c (by simp) k hk ha)
    refine ⟨hle, (S.restrict_le X c).trans h.value_le, ?_,
      fun d hd => h.queue_satisfied d (List.mem_cons_of_mem c hd)⟩
    rintro t (ht | ⟨rfl, hne⟩)
    · exact h.pending_active t ht
    · -- the target lost an element of the start, so the lower family misses it too
      obtain ⟨k, hk⟩ := Function.ne_iff.mp hne
      refine Or.inr ⟨k, S.targetCells_subset c (S.mem_targetCells_of_restrict_ne hk), ?_⟩
      rintro hYk
      refine hk (Set.Subset.antisymm (S.restrict_le X c k) fun a ha => hle k ?_)
      rw [hYk]
      exact h.value_le k ha

/-- A run never drops below a family that satisfies the constraints of its active
owners. -/
theorem le_value_of_run {start c : Config σ κ χ α} {Y : κ → Set α} (hq : start.queue = [])
    (hle : Y ≤ start.value)
    (hY : ∀ s d, d ∈ S.constraints s → S.Active start Y s → S.Satisfies Y d)
    (hrun : ReflTransGen S.Step start c) : Y ≤ c.value := by
  suffices h : S.Below start Y c from h.le_value
  induction hrun with
  | refl => exact ⟨hle, le_rfl, fun s hs => Or.inl hs, by simp [hq]⟩
  | tail _ hstep ih => exact ih.step S hY hstep

/-- **Confluence.**  Two finished runs from one configuration end with the same
values, in whatever order their turns were taken. -/
theorem finished_value_eq {start c c' : Config σ κ χ α} (hq : start.queue = [])
    (hrun : ReflTransGen S.Step start c) (hfin : c.Finished)
    (hrun' : ReflTransGen S.Step start c') (hfin' : c'.Finished) : c.value = c'.value := by
  refine le_antisymm ?_ ?_
  · exact S.le_value_of_run hq (S.settled_run hrun).value_le
      (fun _ _ hd hact => S.satisfies_of_finished hrun hfin hd hact) hrun'
  · exact S.le_value_of_run hq (S.settled_run hrun').value_le
      (fun _ _ hd hact => S.satisfies_of_finished hrun' hfin' hd hact) hrun

/-- **The greatest stable family.**  A finished run whose owners all had a turn due
at the start ends at the greatest family below the start that satisfies every
constraint. -/
theorem isGreatest_of_finished {start c : Config σ κ χ α} (hq : start.queue = [])
    (hall : ∀ s d, d ∈ S.constraints s → s ∈ start.pending)
    (hrun : ReflTransGen S.Step start c) (hfin : c.Finished) :
    IsGreatest {Y | Y ≤ start.value ∧ ∀ s, ∀ d ∈ S.constraints s, S.Satisfies Y d} c.value := by
  refine ⟨⟨(S.settled_run hrun).value_le, fun s d hd => ?_⟩, fun Y hY => ?_⟩
  · exact S.satisfies_of_finished hrun hfin hd (Or.inl (hall s d hd))
  · exact S.le_value_of_run hq hY.1 (fun s d hd _ => hY.2 s d hd) hrun

end System

end Chaotic
