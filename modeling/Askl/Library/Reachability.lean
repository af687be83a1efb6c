import Mathlib.Data.List.Dedup
import Mathlib.Data.List.Basic
import Mathlib.Logic.Relation

/-!
# Finite reachability

The closure of a set under a finite list of edges, computed the way a recursive query with
`UNION` computes it: the elements found last are followed along the edges, what they lead to
is added if it is new, until nothing is.

An edge is a pair of a dependent and what it depends on; the closure of a set is everything
that depends on it, directly or through others.

## Main definitions

* `DependsOn` — the dependents of an element, through any number of edges.
* `dependents`, `close`, `closure` — the computation.

## Main results

* `mem_closure` — **the closure is what depends on the seeds.**
-/

namespace Reachability

open Relation

variable {α : Type*}

/-- To depend on an element through any number of edges. -/
def DependsOn (edges : List (α × α)) : α → α → Prop :=
  ReflTransGen fun a b => (a, b) ∈ edges

theorem DependsOn.mono {edges edges' : List (α × α)} (h : edges ⊆ edges') {a b : α}
    (hab : DependsOn edges a b) : DependsOn edges' a b :=
  ReflTransGen.mono (fun _ _ hedge => h hedge) a b hab

variable [DecidableEq α]

/-- The direct dependents of some elements. -/
def dependents (edges : List (α × α)) (working : List α) : List α :=
  (edges.filter fun e => e.2 ∈ working).map (·.1)

/-- Follow the edges from the elements found last, at most as often as the fuel allows. -/
def close (edges : List (α × α)) : ℕ → List α → List α → List α
  | 0, found, _ => found
  | fuel + 1, found, working =>
    let new := (dependents edges working).dedup.filter fun a => a ∉ found
    if new = [] then found else close edges fuel (found ++ new) new

/-- Everything that depends on some seeds. -/
def closure (edges : List (α × α)) (seeds : List α) : List α :=
  close edges (edges.length + 1) seeds.dedup seeds.dedup

variable {edges : List (α × α)}

theorem mem_dependents {working : List α} {a : α} :
    a ∈ dependents edges working ↔ ∃ b ∈ working, (a, b) ∈ edges := by
  unfold dependents
  rw [List.mem_map]
  constructor
  · rintro ⟨⟨a', b⟩, he, rfl⟩
    rw [List.mem_filter] at he
    exact ⟨b, by simpa using he.2, he.1⟩
  · rintro ⟨b, hb, he⟩
    exact ⟨(a, b), List.mem_filter.mpr ⟨he, by simpa using hb⟩, rfl⟩

theorem mem_of_mem_close {fuel : ℕ} {found working : List α} {a : α}
    (h : a ∈ close edges fuel found working) (hsub : working ⊆ found) :
    ∃ b ∈ found, DependsOn edges a b := by
  induction fuel generalizing found working with
  | zero => exact ⟨a, h, ReflTransGen.refl⟩
  | succ fuel ih =>
    rw [close] at h
    split at h
    · exact ⟨a, h, ReflTransGen.refl⟩
    · obtain ⟨b, hb, hab⟩ := ih h (List.subset_append_right _ _)
      rcases List.mem_append.mp hb with hb | hb
      · exact ⟨b, hb, hab⟩
      · rw [List.mem_filter, List.mem_dedup] at hb
        obtain ⟨c, hc, hedge⟩ := mem_dependents.mp hb.1
        exact ⟨c, hsub hc, hab.tail hedge⟩

theorem subset_close (fuel : ℕ) (found working : List α) :
    found ⊆ close edges fuel found working := by
  induction fuel generalizing found working with
  | zero => exact fun _ h => h
  | succ fuel ih =>
    rw [close]
    split
    · exact fun _ h => h
    · intro a ha
      exact ih _ _ (List.mem_append_left _ ha)

/-- The edges whose dependent has not been found. -/
def openEdges (edges : List (α × α)) (found : List α) : ℕ :=
  (edges.filter fun e => e.1 ∉ found).length

/-- What is new closes an edge. -/
theorem openEdges_append_lt {found new : List α} {a b : α} (hedge : (a, b) ∈ edges)
    (ha : a ∉ found) (hnew : a ∈ new) :
    openEdges edges (found ++ new) < openEdges edges found := by
  unfold openEdges
  have hsub : (edges.filter fun e => e.1 ∉ found ++ new).Sublist
      (edges.filter fun e => e.1 ∉ found) := by
    refine List.monotone_filter_right edges fun e he => ?_
    simp only [List.mem_append, decide_eq_true_eq, not_or] at he ⊢
    exact he.1
  refine Nat.lt_of_le_of_ne hsub.length_le fun hlen => ?_
  have heq := hsub.eq_of_length hlen
  have hmem : (a, b) ∈ edges.filter fun e => e.1 ∉ found :=
    List.mem_filter.mpr ⟨hedge, by simpa using ha⟩
  rw [← heq, List.mem_filter] at hmem
  have hnot := hmem.2
  simp only [List.mem_append, decide_eq_true_eq, not_or] at hnot
  exact hnot.2 hnew

/-- With enough fuel the search ends with a set that is closed under the edges. -/
theorem close_closed {fuel : ℕ} {found working : List α}
    (hfuel : openEdges edges found < fuel)
    (hdone : ∀ a b, (a, b) ∈ edges → b ∈ found → b ∉ working → a ∈ found) {a b : α}
    (hedge : (a, b) ∈ edges) (hb : b ∈ close edges fuel found working) :
    a ∈ close edges fuel found working := by
  induction fuel generalizing found working with
  | zero => exact absurd hfuel (Nat.not_lt_zero _)
  | succ fuel ih =>
    rw [close] at hb ⊢
    split at hb
    · next hnil =>
      rw [if_pos hnil]
      by_cases hw : b ∈ working
      · -- nothing was new, so the dependents of the last elements had been found
        by_contra ha
        have hmem : a ∈ (dependents edges working).dedup.filter fun a => a ∉ found := by
          rw [List.mem_filter, List.mem_dedup]
          exact ⟨mem_dependents.mpr ⟨b, hw, hedge⟩, by simpa using ha⟩
        rw [hnil] at hmem
        cases hmem
      · exact hdone a b hedge hb hw
    · next hne =>
      rw [if_neg hne]
      obtain ⟨c, hc⟩ := List.exists_mem_of_ne_nil _ hne
      have hc' := List.mem_filter.mp hc
      rw [List.mem_dedup] at hc'
      obtain ⟨d, -, hcd⟩ := mem_dependents.mp hc'.1
      have hlt := openEdges_append_lt hcd (by simpa using hc'.2) hc
      refine ih (by omega) ?_ hb
      intro x y hxy hy hynew
      rw [List.mem_append]
      rcases List.mem_append.mp hy with hy | hy
      · by_cases hw : y ∈ working
        · by_cases hx : x ∈ found
          · exact Or.inl hx
          · right
            rw [List.mem_filter, List.mem_dedup]
            exact ⟨mem_dependents.mpr ⟨y, hw, hxy⟩, by simpa using hx⟩
        · exact Or.inl (hdone x y hxy hy hw)
      · exact absurd hy hynew

theorem closure_closed {seeds : List α} {a b : α} (hedge : (a, b) ∈ edges)
    (hb : b ∈ closure edges seeds) : a ∈ closure edges seeds := by
  have hle : openEdges edges seeds.dedup ≤ edges.length := List.length_filter_le _ _
  refine close_closed (by omega) ?_ hedge hb
  intro x y _ hy hnot
  exact absurd hy hnot

/-- **The closure of the seeds is what depends on them.** -/
theorem mem_closure {seeds : List α} {a : α} :
    a ∈ closure edges seeds ↔ ∃ b ∈ seeds, DependsOn edges a b := by
  constructor
  · intro h
    obtain ⟨b, hb, hab⟩ := mem_of_mem_close h fun _ hx => hx
    exact ⟨b, List.mem_dedup.mp hb, hab⟩
  · rintro ⟨b, hb, hab⟩
    have hseed : b ∈ closure edges seeds :=
      subset_close _ _ _ (List.mem_dedup.mpr hb)
    -- along the path, from the seed back to the dependent
    induction hab using ReflTransGen.head_induction_on with
    | refl => exact hseed
    | head hedge _ ih => exact closure_closed hedge ih

end Reachability
