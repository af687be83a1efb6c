import Mathlib.Logic.Relation
import Mathlib.Order.WellFounded
import Mathlib.Order.OrderIsoNat

/-!
# Runs of a transition system

Invariants and termination of the runs of a step relation, of the runs whose steps
all start in states that meet a guard, and of a loop that computes one of the runs.

## Main definitions

* `Guarded` — the steps out of the states that meet a guard.
* `Terminates` — every run from a state is finite.
* `loop` — a loop with a fuel bound, whose body goes on or stops with a result.
* `trace` — the state after a list of actions, each of which may be disabled.

## Main results

* `invariant_of_run` — **what every step keeps, every run keeps.**
* `terminates_of_rank` — **a rank that every step lowers bounds every run.**
* `not_exists_infinite_run` — no infinite run starts where every run is finite.
* `exists_loop_eq_some`, `terminates_of_loop` — a loop returns with some fuel exactly when its
  runs are finite.
* `invariant_of_trace` — **what every action keeps of a history, every trace keeps.**
* `run_of_trace` — a trace of steps is a run.
-/

namespace Runs

open Relation

variable {α β ρ : Type*} {step : α → α → Prop}

/-! ### Invariants -/

/-- The steps out of the states that meet a guard. -/
def Guarded (step : α → α → Prop) (guard : α → Prop) : α → α → Prop :=
  fun a b => guard a ∧ step a b

/-- A guarded run of some of the steps is a guarded run. -/
theorem guarded_mono {step' : α → α → Prop} (hle : ∀ {a b}, step a b → step' a b)
    {guard : α → Prop} {a b : α} (h : ReflTransGen (Guarded step guard) a b) :
    ReflTransGen (Guarded step' guard) a b := by
  have hle : Guarded step guard ≤ Guarded step' guard := fun _ _ hab => ⟨hab.1, hle hab.2⟩
  exact ReflTransGen.mono hle a b h

/-- **The invariant rule.** -/
theorem invariant_of_run {I : α → Prop} (hstep : ∀ {a b}, I a → step a b → I b) {a b : α}
    (hrun : ReflTransGen step a b) (ha : I a) : I b := by
  induction hrun with
  | refl => exact ha
  | tail _ hab ih => exact hstep ih hab

/-! ### Termination -/

/-- Every run from a state is finite. -/
def Terminates (step : α → α → Prop) (a : α) : Prop := Acc (fun y x => step x y) a

/-- **The rank rule.**  A rank into a well-founded order, lowered by every step between
states that keep an invariant, makes every run finite. -/
theorem terminates_of_rank {r : ρ → ρ → Prop} (hr : WellFounded r) (rank : α → ρ)
    {I : α → Prop} (hstep : ∀ {a b}, I a → step a b → I b ∧ r (rank b) (rank a)) {a : α}
    (ha : I a) : Terminates step a := by
  induction h : rank a using hr.induction generalizing a with
  | _ x ih =>
    subst h
    refine Acc.intro a fun b hab => ?_
    obtain ⟨hb, hlt⟩ := hstep ha hab
    exact ih (rank b) hlt hb rfl

/-- No infinite run starts in a state whose runs are finite. -/
theorem not_exists_infinite_run {a : α} (h : Terminates step a) :
    ¬∃ f : ℕ → α, f 0 = a ∧ ∀ k, step (f k) (f (k + 1)) := by
  rintro ⟨f, rfl, hf⟩
  exact not_acc_iff_exists_descending_chain.mpr ⟨f, rfl, hf⟩ h

/-- Some run from a state whose runs are finite ends where no step is left. -/
theorem exists_run_to_end {a : α} (h : Terminates step a) :
    ∃ b, ReflTransGen step a b ∧ ∀ c, ¬step b c := by
  induction h with
  | intro a _ ih =>
    by_cases hstuck : ∃ c, step a c
    · obtain ⟨c, hac⟩ := hstuck
      obtain ⟨b, hcb, hb⟩ := ih c hac
      exact ⟨b, .head hac hcb, hb⟩
    · exact ⟨a, .refl, not_exists.mp hstuck⟩

/-! ### Loops -/

/-- Repeat a body until it stops with a result, at most as often as the fuel allows. -/
def loop (body : α → α ⊕ β) : ℕ → α → Option β
  | 0, _ => none
  | fuel + 1, a => match body a with
    | .inl a' => loop body fuel a'
    | .inr b => some b

/-- A loop that returns made a run of its body up to the state it stopped in. -/
theorem exists_run_of_loop {body : α → α ⊕ β} {fuel : ℕ} {a : α} {b : β}
    (h : loop body fuel a = some b) :
    ∃ a', ReflTransGen (fun x y => body x = .inl y) a a' ∧ body a' = .inr b := by
  induction fuel generalizing a with
  | zero => cases h
  | succ fuel ih =>
    rw [loop] at h
    cases hbody : body a with
    | inl a' =>
      rw [hbody] at h
      obtain ⟨c, hrun, hc⟩ := ih h
      exact ⟨c, .head hbody hrun, hc⟩
    | inr b' =>
      rw [hbody] at h
      exact ⟨a, .refl, hbody.trans (congrArg _ (Option.some.inj h))⟩

/-- A loop whose runs are finite has a fuel that is enough. -/
theorem exists_loop_eq_some {body : α → α ⊕ β} {a : α}
    (h : Terminates (fun x y => body x = .inl y) a) : ∃ fuel b, loop body fuel a = some b := by
  induction h with
  | intro a _ ih =>
    cases hbody : body a with
    | inl a' =>
      obtain ⟨fuel, b, hb⟩ := ih a' hbody
      exact ⟨fuel + 1, b, by simpa only [loop, hbody] using hb⟩
    | inr b => exact ⟨1, b, by simp only [loop, hbody]⟩

/-- A loop that returns makes finite runs only. -/
theorem terminates_of_loop {body : α → α ⊕ β} {fuel : ℕ} {a : α} {b : β}
    (h : loop body fuel a = some b) : Terminates (fun x y => body x = .inl y) a := by
  induction fuel generalizing a with
  | zero => cases h
  | succ fuel ih =>
    rw [loop] at h
    cases hbody : body a with
    | inl a' =>
      rw [hbody] at h
      refine Acc.intro a fun c hc => ?_
      rw [← Sum.inl.inj (hbody.symm.trans hc)]
      exact ih h
    | inr b' => exact Acc.intro a fun c hc => absurd (hbody.symm.trans hc) (by simp)

/-- A loop that returns does so with more fuel. -/
theorem loop_eq_some_of_le {body : α → α ⊕ β} {fuel fuel' : ℕ} (hle : fuel ≤ fuel') {a : α} {b : β}
    (h : loop body fuel a = some b) : loop body fuel' a = some b := by
  induction fuel generalizing a fuel' with
  | zero => cases h
  | succ fuel ih =>
    obtain ⟨k, rfl⟩ : ∃ k, fuel' = k + 1 := ⟨fuel' - 1, by omega⟩
    rw [loop] at h ⊢
    cases hbody : body a with
    | inl a' =>
      rw [hbody] at h
      exact ih (by omega) h
    | inr b' =>
      rw [hbody] at h
      exact h

/-! ### Traces -/

section Trace

variable {σ ε : Type} (act : σ → ε → Option σ)

/-- The state after a list of actions, if all of them were enabled. -/
def trace (s : σ) (es : List ε) : Option σ := es.foldlM act s

variable {act}

@[simp] theorem trace_nil (s : σ) : trace act s [] = some s := rfl

theorem trace_append {s s' : σ} {es fs : List ε} :
    trace act s (es ++ fs) = some s' ↔ ∃ m, trace act s es = some m ∧ trace act m fs = some s' := by
  unfold trace
  rw [List.foldlM_append]
  exact Option.bind_eq_some_iff

theorem trace_cons {s s' : σ} {a : ε} {es : List ε} :
    trace act s (a :: es) = some s' ↔ ∃ m, act s a = some m ∧ trace act m es = some s' := by
  unfold trace
  rw [List.foldlM_cons]
  exact Option.bind_eq_some_iff

theorem trace_concat {s s' : σ} {es : List ε} {a : ε} :
    trace act s (es ++ [a]) = some s' ↔ ∃ m, trace act s es = some m ∧ act m a = some s' := by
  rw [trace_append]
  refine exists_congr fun m => and_congr_right fun _ => ?_
  rw [trace_cons]
  simp

/-- **The invariant rule for traces**: the invariant may speak of the actions so far. -/
theorem invariant_of_trace {I : List ε → σ → Prop} {s s' : σ} {es : List ε} (hnil : I [] s)
    (hstep : ∀ {fs a m m'}, trace act s fs = some m → I fs m → act m a = some m' →
      I (fs ++ [a]) m') (h : trace act s es = some s') : I es s' := by
  induction es using List.reverseRecOn generalizing s' with
  | nil =>
    obtain rfl : s = s' := Option.some.inj h
    exact hnil
  | append_singleton es a ih =>
    obtain ⟨m, hm, ha⟩ := trace_concat.mp h
    exact hstep hm (ih hm) ha

/-- Actions that are steps make a run. -/
theorem run_of_trace (act : σ → ε → Option σ) {step : σ → σ → Prop}
    (hstep : ∀ {s a s'}, act s a = some s' → step s s') {s s' : σ} {es : List ε}
    (h : trace act s es = some s') : ReflTransGen step s s' := by
  induction es generalizing s with
  | nil =>
    obtain rfl := Option.some.inj h
    exact .refl
  | cons a es ih =>
    obtain ⟨m, hm, hrest⟩ := trace_cons.mp h
    exact .head (hstep hm) (ih hrest)

end Trace

end Runs
