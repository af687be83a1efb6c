import Askl.Index.Rows
import Mathlib.Data.List.Sort
import Mathlib.Data.List.Dedup

/-!
# The layers a request sees

A request is rooted in the root layers of the visible projects, and each root
carries a chain of the ephemeral layers materialised for it so far.  Chains grow
by rounds: one statement appends its layers for every root at once.  Queries see
the flat set of all of them.

## Main definitions

* `RootLayer`, `EphContext` — the roots, sorted by id, and their chains.
* `EphContext.rooted`, `EphContext.pushRound` — the constructor and the only growth.
* `EphContext.visibleIds`, `EphContext.hasChain` — the layers a query sees.
* `EphContext.chainOf`, `EphContext.chainLast` — a root's chain, and its last layer.

## Main results

* `EphContext.mem_visibleIds` — a visible layer is a root or sits on a chain.
* `EphContext.SignConsistent.mem_rootIds_iff` — a visible layer is a root exactly
  when its id is positive.
* `EphContext.visibleIds_eq_rootIds` — without chains, only the roots are visible.
-/

namespace Askl

/-- A project's root layer. -/
structure RootLayer where
  id : ℤ
  projectId : ℤ
  deriving DecidableEq, Repr

/-- The roots and the chains parallel to them.  Every root has a chain, and chains
grow in lockstep: either all of them are empty or none is. -/
structure EphContext where
  roots : List RootLayer
  chains : List (List ℤ)
  parallel : chains.length = roots.length
  lockstep : ∀ c ∈ chains, ∀ d ∈ chains, c = [] → d = []
  deriving DecidableEq

namespace EphContext

/-- Keep the first of each run of roots with one id, as `dedup_by` does. -/
def dedupRoots : List RootLayer → List RootLayer
  | [] => []
  | r :: rs => match dedupRoots rs with
    | [] => [r]
    | r' :: rs' => if r.id = r'.id then r :: rs' else r :: r' :: rs'

/-- A context over the given roots, with empty chains. -/
def rooted (roots : List RootLayer) : EphContext where
  roots := dedupRoots (roots.insertionSort fun a b => a.id ≤ b.id)
  chains := (dedupRoots (roots.insertionSort fun a b => a.id ≤ b.id)).map fun _ => []
  parallel := by simp
  lockstep := by
    intro c _ d hd _
    obtain ⟨_, _, rfl⟩ := List.mem_map.mp hd
    rfl

/-- The chain of a root after a round: the round's layers for that root, in order. -/
def pushChain (round : List (ℤ × ℤ)) (r : RootLayer) (chain : List ℤ) : List ℤ :=
  chain ++ (round.filter fun p => p.1 == r.id).map (·.2)

/-- Whether a round names every root and no other. -/
def roundMatches (eph : EphContext) (round : List (ℤ × ℤ)) : Bool :=
  eph.roots.all (fun r => round.any fun p => p.1 == r.id) &&
    round.all fun p => eph.roots.any fun r => p.1 == r.id

theorem pushChain_ne_nil {eph : EphContext} {round : List (ℤ × ℤ)}
    (h : eph.roundMatches round = true) {c : List ℤ}
    (hc : c ∈ List.zipWith (pushChain round) eph.roots eph.chains) : c ≠ [] := by
  simp only [roundMatches, Bool.and_eq_true, List.all_eq_true] at h
  rw [← List.map_uncurry_zip_eq_zipWith] at hc
  obtain ⟨⟨r, chain⟩, hmem, rfl⟩ := List.mem_map.mp hc
  obtain ⟨p, hp, hpr⟩ := List.any_eq_true.mp (h.1 r (List.of_mem_zip hmem).1)
  intro hnil
  have hmap : (round.filter fun p => p.1 == r.id).map (·.2) = [] :=
    (List.append_eq_nil_iff.mp hnil).2
  have hfil := List.map_eq_nil_iff.mp hmap
  exact List.filter_eq_nil_iff.mp hfil p hp hpr

/-- Append one statement's layers, given with their roots.  The source panics on a
round that misses a root or names an unknown one. -/
def pushRound (eph : EphContext) (round : List (ℤ × ℤ)) : Option EphContext :=
  if h : eph.roundMatches round = true then
    some {
      roots := eph.roots
      chains := List.zipWith (pushChain round) eph.roots eph.chains
      parallel := by simp [eph.parallel]
      lockstep := fun _ hc _ _ hnil => absurd hnil (pushChain_ne_nil h hc) }
  else none

/-- The visible root ids. -/
def rootIds (eph : EphContext) : List ℤ := eph.roots.map (·.id)

/-- The roots and every chain, flattened. -/
def visibleIds (eph : EphContext) : List ℤ := eph.rootIds ++ eph.chains.flatten

/-- The chain of a root. -/
def chainOf (eph : EphContext) (rootId : ℤ) : List ℤ :=
  ((eph.roots.zip eph.chains).find? fun p => p.1.id == rootId).elim [] (·.2)

/-- The layer of a root's chain that was materialised last. -/
def chainLast (eph : EphContext) (rootId : ℤ) : Option ℤ := (eph.chainOf rootId).getLast?

/-- Whether any layer has been materialised: the first root's chain answers for all. -/
def hasChain (eph : EphContext) : Bool := match eph.chains with
  | [] => false
  | c :: _ => !c.isEmpty

theorem mem_visibleIds {eph : EphContext} {l : ℤ} :
    l ∈ eph.visibleIds ↔ l ∈ eph.rootIds ∨ ∃ c ∈ eph.chains, l ∈ c := by
  simp [visibleIds]

/-- The layers of a root's chain are visible. -/
theorem mem_visibleIds_of_chainOf {eph : EphContext} {rootId l : ℤ}
    (h : l ∈ eph.chainOf rootId) : l ∈ eph.visibleIds := by
  unfold chainOf at h
  cases hfind : (eph.roots.zip eph.chains).find? fun p => p.1.id == rootId with
  | none => rw [hfind] at h; cases h
  | some p =>
    rw [hfind] at h
    have hmem := (List.of_mem_zip (List.mem_of_find?_eq_some hfind)).2
    exact mem_visibleIds.mpr (Or.inr ⟨p.2, hmem, h⟩)

/-- Without chains only the roots are visible. -/
theorem visibleIds_eq_rootIds {eph : EphContext} (h : eph.hasChain = false) :
    eph.visibleIds = eph.rootIds := by
  have hnil : eph.chains.flatten = [] := by
    rw [List.flatten_eq_nil_iff]
    intro d hd
    cases hch : eph.chains with
    | nil => simp [hch] at hd
    | cons c cs =>
      have hc : c = [] := by simpa [hasChain, hch] using h
      exact eph.lockstep c (by simp [hch]) d hd hc
  simp [visibleIds, hnil]

/-- A round leaves the roots alone and makes its layers visible. -/
theorem pushRound_visible {eph eph' : EphContext} {round : List (ℤ × ℤ)}
    (h : eph.pushRound round = some eph') :
    eph'.roots = eph.roots ∧ ∀ l ∈ eph.visibleIds, l ∈ eph'.visibleIds := by
  unfold pushRound at h
  split at h
  · obtain rfl := Option.some.inj h
    refine ⟨rfl, fun l hl => ?_⟩
    rcases mem_visibleIds.mp hl with hr | ⟨c, hc, hlc⟩
    · exact mem_visibleIds.mpr (Or.inl hr)
    · obtain ⟨i, hi, rfl⟩ := List.mem_iff_getElem.mp hc
      have hroot : i < eph.roots.length := by
        rw [← eph.parallel]
        exact hi
      refine mem_visibleIds.mpr (Or.inr ⟨pushChain round eph.roots[i] eph.chains[i], ?_, ?_⟩)
      · rw [List.mem_iff_getElem]
        exact ⟨i, by simp [eph.parallel] at hi ⊢; omega, by simp⟩
      · exact List.mem_append_left _ hlc
  · cases h

/-- The sign convention of layer ids: roots positive, ephemeral layers negative. -/
structure SignConsistent (eph : EphContext) : Prop where
  roots_pos : ∀ r ∈ eph.roots, 0 < r.id
  chains_neg : ∀ c ∈ eph.chains, ∀ l ∈ c, l < 0

/-- A visible layer is a root exactly when its id is positive. -/
theorem SignConsistent.mem_rootIds_iff {eph : EphContext} (h : eph.SignConsistent) {l : ℤ}
    (hl : l ∈ eph.visibleIds) : l ∈ eph.rootIds ↔ 0 < l := by
  constructor
  · intro hr
    obtain ⟨r, hmem, rfl⟩ := List.mem_map.mp hr
    exact h.roots_pos r hmem
  · intro hpos
    rcases mem_visibleIds.mp hl with hr | ⟨c, hc, hlc⟩
    · exact hr
    · have := h.chains_neg c hc l hlc
      omega

end EphContext

end Askl
