import Askl.Library.Runs
import Mathlib.Data.Finset.Card

/-!
# Walks in a finite graph

A step relation in which only finitely many states have a step at all is a finite graph.
Every run from a state is finite exactly when no cycle can be reached from it.  A walk
that takes the only step there is, as long as the state meets a guard, ends exactly when it
meets no cycle or comes to a state that does not meet the guard.

## Main definitions

* `Acyclic` — no cycle is reached from a state.

## Main results

* `Terminates.acyclic`, `terminates_of_acyclic` — **in a finite graph the runs are finite where
  no cycle is reached.**
* `terminates_guarded_iff` — **a guarded walk ends without a cycle, or at the guard.**
-/

namespace Runs

open Relation

variable {α : Type*} {step : α → α → Prop} {guard : α → Prop} {states : Finset α} {a b : α}

/-- No state that is reached comes back to itself. -/
def Acyclic (step : α → α → Prop) (a : α) : Prop :=
  ∀ p, ReflTransGen step a p → ¬TransGen step p p

/-! ### Cycles -/

/-- A rank that every step raises leaves no cycle. -/
theorem acyclic_of_rank (rank : α → ℕ) (hstep : ∀ {a b}, step a b → rank a < rank b) (a : α) :
    Acyclic step a := by
  intro p _ hcycle
  have hlt : ∀ {q}, TransGen step p q → rank p < rank q := by
    intro q hq
    induction hq with
    | single hpq => exact hstep hpq
    | tail _ hqr ih => exact ih.trans (hstep hqr)
  exact (hlt hcycle).false

/-- Where the runs are finite, so are those from a state that is reached. -/
theorem Terminates.of_run (h : Terminates step a) (hab : ReflTransGen step a b) :
    Terminates step b := by
  induction hab with
  | refl => exact h
  | tail _ hbc ih => exact ih.inv hbc

/-- Where the runs are finite no cycle is reached. -/
theorem Terminates.acyclic (h : Terminates step a) : Acyclic step a := by
  intro p hp
  have hacc : Acc (TransGen fun y x => step x y) p := (h.of_run hp).transGen
  induction hacc with
  | intro p _ ih =>
    intro hcycle
    have hback : TransGen (fun y x => step x y) p p := transGen_swap.mpr hcycle
    exact ih p hback hp hcycle

/-- **In a finite graph the runs are finite where no cycle is reached.**  A step leaves
fewer states with a step to be reached: the one it is taken from is not reached again. -/
theorem terminates_of_acyclic (hfinite : ∀ {p q}, step p q → p ∈ states) (h : Acyclic step a) :
    Terminates step a := by
  classical
  let reached : α → Finset α := fun p => states.filter (ReflTransGen step p)
  refine terminates_of_rank wellFounded_lt (fun p => (reached p).card)
    (I := fun p => ReflTransGen step a p) ?_ .refl
  intro p q hp hpq
  refine ⟨hp.tail hpq, Finset.card_lt_card (Finset.ssubset_iff_of_subset ?_ |>.mpr ⟨p, ?_, ?_⟩)⟩
  · intro r hr
    obtain ⟨hr, hqr⟩ := Finset.mem_filter.mp hr
    exact Finset.mem_filter.mpr ⟨hr, .head hpq hqr⟩
  · exact Finset.mem_filter.mpr ⟨hfinite hpq, .refl⟩
  · intro hback
    exact h p hp (.head' hpq (Finset.mem_filter.mp hback).2)

/-! ### Guarded walks -/

/-- As long as the guard is met, a run is a guarded one. -/
theorem guarded_of_run (hguard : ∀ p, ReflTransGen step a p → guard p)
    (h : ReflTransGen step a b) : ReflTransGen (Guarded step guard) a b := by
  induction h with
  | refl => exact .refl
  | @tail p q hap hpq ih => exact ih.tail ⟨hguard p hap, hpq⟩

/-- A walk without a choice ends where it comes to a state that does not meet the guard. -/
theorem terminates_guarded_of_not (hfun : ∀ {p q r}, step p q → step p r → q = r)
    (h : ReflTransGen step a b) (hb : ¬guard b) : Terminates (Guarded step guard) a := by
  induction h using ReflTransGen.head_induction_on with
  | refl => exact Acc.intro b fun q hq => absurd hq.1 hb
  | head hpq _ ih =>
    refine Acc.intro _ fun r hr => ?_
    rw [hfun hr.2 hpq]
    exact ih

/-- **A guarded walk ends without a cycle, or at the guard.** -/
theorem terminates_guarded_iff (hfinite : ∀ {p q}, step p q → p ∈ states)
    (hfun : ∀ {p q r}, step p q → step p r → q = r) :
    Terminates (Guarded step guard) a ↔
      Acyclic step a ∨ ∃ p, ReflTransGen step a p ∧ ¬guard p := by
  constructor
  · intro h
    by_contra hnot
    obtain ⟨hcycle, hguard⟩ := not_or.mp hnot
    have hguard : ∀ p, ReflTransGen step a p → guard p := by
      intro p hp
      by_contra hne
      exact hguard ⟨p, hp, hne⟩
    refine hcycle fun p hp hback => ?_
    -- the walk meets the guard all the way, also around the cycle
    obtain ⟨q, hpq, hqp⟩ := TransGen.head'_iff.mp hback
    have hmet : ∀ r, ReflTransGen step q r → guard r :=
      fun r hr => hguard r (hp.trans (.head hpq hr))
    exact h.acyclic p (guarded_of_run hguard hp)
      (.head' ⟨hguard p hp, hpq⟩ (guarded_of_run hmet hqp))
  · rintro (hacyclic | ⟨p, hp, hnot⟩)
    · have hle : ∀ {p q}, Guarded step guard p q → step p q := fun h => h.2
      exact Subrelation.accessible hle (terminates_of_acyclic hfinite hacyclic)
    · exact terminates_guarded_of_not hfun hp hnot

end Runs
