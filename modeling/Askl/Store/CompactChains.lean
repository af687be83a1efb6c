import Askl.Library.Walks
import Askl.Store.ProjectTree

/-!
# Compact chains

`walk_compact_chain` follows a map from directories to their only child until a path has no
successor.  The loop also stops at a path of more than 4096 bytes, which is meant to keep it
from running in a cycle; but it looks at the length of the path it has come to, and the
paths of a cycle do not get longer.

The maps of the tree browser have no cycles: a directory has a longer name than the one it
is in.

## Main definitions

* `walkBody`, `walkCompactChainIn` — the loop, and what it returns in some turns.
* `Linked`, `OnChain` — the chain of paths from a start.
* `CompactChainRight` — the walk ends, with the last path of the chain.

## Main results

* `terminates_walk_iff` — the walk ends without a cycle, or at a long path.
* `walkReturns_last` — the walk along a chain of short paths returns the last.
* `compactChainRight_iff` — **the walks that are right.**
* `walkReturns_compactPathOf` — **every walk of the tree browser ends.**
-/

namespace Askl

open Relation Runs

/-! ### The loop -/

/-- The body of the loop of `walk_compact_chain`: the next path, or the one it stops at. -/
def walkBody (map : List (Text × Text)) (current : Text) : Text ⊕ Text :=
  if (Utf8.utf8 current).length ≤ 4096 then
    match map.lookup current with
    | some next => .inl next
    | none => .inr current
  else .inr current

/-- `walk_compact_chain`, for some turns of its loop; nothing while the loop goes on. -/
def walkCompactChainIn (map : List (Text × Text)) (turns : ℕ) (start : Text) :
    Option (Option Text) :=
  (loop (walkBody map) turns start).map fun current =>
    if current ≠ start then some current else none

/-- The walk from a start returns. -/
def WalkReturns (map : List (Text × Text)) (start : Text) (result : Option Text) : Prop :=
  ∃ turns, walkCompactChainIn map turns start = some result

/-! ### Chains -/

/-- One path is the child of another in the map. -/
def Linked (map : List (Text × Text)) (path child : Text) : Prop := map.lookup path = some child

/-- A path on the chain from a start. -/
def OnChain (map : List (Text × Text)) (start path : Text) : Prop :=
  ReflTransGen (Linked map) start path

/-- No path on the chain from a start comes again. -/
def AcyclicChain (map : List (Text × Text)) (start : Text) : Prop :=
  ∀ path, OnChain map start path → ¬TransGen (Linked map) path path

/-- A path that the bound of the loop lets pass. -/
def ShortPath (path : Text) : Prop := (Utf8.utf8 path).length ≤ 4096

/-- The walk ends; along a chain without a cycle whose paths are short it returns the last
path, or nothing when the start has no child. -/
structure CompactChainRight (map : List (Text × Text)) (start : Text) : Prop where
  terminates : ∃ result, WalkReturns map start result
  last : AcyclicChain map start → (∀ path, OnChain map start path → ShortPath path) →
    ∃ last, OnChain map start last ∧ map.lookup last = none ∧
      WalkReturns map start (if map.lookup start = none then none else some last)

section Walk

variable {map : List (Text × Text)} {start : Text}

/-- The loop goes on along a link, from a path that is short. -/
theorem walkBody_eq_inl {current next : Text} :
    walkBody map current = .inl next ↔ Guarded (Linked map) ShortPath current next := by
  unfold walkBody
  by_cases hshort : (Utf8.utf8 current).length ≤ 4096
  · rw [if_pos hshort]
    cases hlookup : map.lookup current <;> simp [Guarded, Linked, ShortPath, hshort, hlookup]
  · rw [if_neg hshort]
    simp [Guarded, ShortPath, hshort]

/-- The loop stops where it is. -/
theorem eq_of_walkBody_eq_inr {current result : Text} (h : walkBody map current = .inr result) :
    result = current ∧ (ShortPath current → map.lookup current = none) := by
  unfold walkBody at h
  split at h
  · split at h
    · cases h
    · next hlookup => exact ⟨(Sum.inr.inj h).symm, fun _ => hlookup⟩
  · next hlong => exact ⟨(Sum.inr.inj h).symm, fun hshort => absurd hshort hlong⟩

/-- The paths with a child are the keys of the map. -/
theorem Linked.mem_keys {p q : Text} (h : Linked map p q) : p ∈ (map.map Prod.fst).toFinset :=
  List.mem_toFinset.mpr (List.mem_map_of_mem (Keyed.mem_of_lookup h))

/-- A path has one child. -/
theorem Linked.eq {p q r : Text} (hq : Linked map p q) (hr : Linked map p r) : q = r :=
  Option.some.inj (hq.symm.trans hr)

/-- The walk returns when its runs are finite. -/
theorem exists_walkReturns_iff :
    (∃ result, WalkReturns map start result) ↔
      Terminates (Guarded (Linked map) ShortPath) start := by
  have hstep : (fun x y => walkBody map x = .inl y) = Guarded (Linked map) ShortPath := by
    funext x y
    exact propext walkBody_eq_inl
  rw [← hstep]
  constructor
  · rintro ⟨result, turns, h⟩
    obtain ⟨current, hloop, -⟩ := Option.map_eq_some_iff.mp h
    exact terminates_of_loop hloop
  · intro h
    obtain ⟨turns, current, hloop⟩ := exists_loop_eq_some h
    exact ⟨_, turns, Option.map_eq_some_iff.mpr ⟨current, hloop, rfl⟩⟩

/-- **The walk ends without a cycle, or at a long path.** -/
theorem terminates_walk_iff :
    (∃ result, WalkReturns map start result) ↔
      AcyclicChain map start ∨ ∃ path, OnChain map start path ∧ ¬ShortPath path := by
  rw [exists_walkReturns_iff]
  exact terminates_guarded_iff Linked.mem_keys Linked.eq

/-- A path without a child is the only one on its chain. -/
theorem OnChain.eq_of_lookup_none {path : Text} (h : OnChain map start path)
    (hnone : map.lookup start = none) : path = start := by
  rcases ReflTransGen.cases_head h with rfl | ⟨next, hnext, -⟩
  · rfl
  · exact absurd (hnone.symm.trans hnext) (by simp)

/-- **The walk along a chain of short paths returns the last.** -/
theorem walkReturns_last (hacyclic : AcyclicChain map start)
    (hshort : ∀ path, OnChain map start path → ShortPath path) :
    ∃ last, OnChain map start last ∧ map.lookup last = none ∧
      WalkReturns map start (if map.lookup start = none then none else some last) := by
  obtain ⟨result, turns, hreturns⟩ := terminates_walk_iff.mpr (Or.inl hacyclic)
  obtain ⟨current, hloop, -⟩ := Option.map_eq_some_iff.mp hreturns
  obtain ⟨last, hrun, hstop⟩ := exists_run_of_loop hloop
  have hchain : OnChain map start last :=
    ReflTransGen.mono (fun _ _ h => (walkBody_eq_inl.mp h).2) _ _ hrun
  obtain ⟨rfl, hlast⟩ := eq_of_walkBody_eq_inr hstop
  have hnone := hlast (hshort current hchain)
  refine ⟨current, hchain, hnone, turns, Option.map_eq_some_iff.mpr ⟨current, hloop, ?_⟩⟩
  by_cases hstart : map.lookup start = none
  · rw [if_pos hstart, if_neg (not_not.mpr (hchain.eq_of_lookup_none hstart))]
  · have hne : current ≠ start := by
      rintro rfl
      exact hstart hnone
    rw [if_neg hstart, if_pos hne]

/-- **The walks that are right**: those that meet no cycle, or a path of more than 4096
bytes. -/
theorem compactChainRight_iff (map : List (Text × Text)) (start : Text) :
    CompactChainRight map start ↔
      AcyclicChain map start ∨ ∃ path, OnChain map start path ∧ ¬ShortPath path := by
  constructor
  · intro h
    exact terminates_walk_iff.mp h.terminates
  · intro h
    exact ⟨terminates_walk_iff.mpr h, walkReturns_last⟩

end Walk

/-- Two directories, each the child of the other. -/
def crossedDirs : List (Text × Text) := [(['/', 'a'], ['/', 'b']), (['/', 'b'], ['/', 'a'])]

/-- The walk goes on between two directories that are each other's child. -/
theorem not_compactChainRight_crossedDirs : ¬CompactChainRight crossedDirs ['/', 'a'] := by
  intro h
  obtain ⟨result, turns, hreturns⟩ := h.terminates
  obtain ⟨current, hloop, -⟩ := Option.map_eq_some_iff.mp hreturns
  have hout : walkBody crossedDirs ['/', 'a'] = .inl ['/', 'b'] :=
    walkBody_eq_inl.mpr ⟨by rw [ShortPath, Utf8.utf8_eq_flatMap]; decide, rfl⟩
  have hback : walkBody crossedDirs ['/', 'b'] = .inl ['/', 'a'] :=
    walkBody_eq_inl.mpr ⟨by rw [ShortPath, Utf8.utf8_eq_flatMap]; decide, rfl⟩
  have hnone : ∀ turns, loop (walkBody crossedDirs) turns ['/', 'a'] = none ∧
      loop (walkBody crossedDirs) turns ['/', 'b'] = none := by
    intro turns
    induction turns with
    | zero => exact ⟨rfl, rfl⟩
    | succ turns ih =>
      rw [loop, loop, hout, hback]
      exact ih.symm
  rw [(hnone turns).1] at hloop
  cases hloop

/-! ### The tree browser -/

/-- How far down a path is, by its length; the root is above all. -/
def pathDepth (path : Text) : ℕ := if path = ['/'] then 0 else (Utf8.utf8 path).length + 1

/-- No chain of the tree browser has a cycle. -/
theorem acyclicChain_queryCompactableDirs (s : Store) (projectId rootLayerId : ℤ) (start : Text) :
    AcyclicChain (queryCompactableDirs s projectId rootLayerId) start := by
  refine acyclic_of_rank pathDepth (fun {path child} hlink => ?_) start
  obtain ⟨hchild, hlonger⟩ := queryCompactableDirs_grows (Keyed.mem_of_lookup hlink)
  dsimp only at hchild hlonger
  unfold pathDepth
  rw [if_neg hchild]
  split
  · exact Nat.succ_pos _
  · next hpath =>
    have hlt := hlonger.resolve_left hpath
    omega

/-- What the walk has come to after its turns, when it returns. -/
theorem walkCompactChain_of_loop {map : List (Text × Text)} {turns : ℕ} {start current : Text}
    (h : loop (walkBody map) turns start = some current) :
    walkCompactChain map turns start = current := by
  induction turns generalizing start with
  | zero => cases h
  | succ turns ih =>
    rw [loop] at h
    rw [walkCompactChain]
    cases hbody : walkBody map start with
    | inl next =>
      rw [hbody] at h
      obtain ⟨hshort, hlink⟩ := walkBody_eq_inl.mp hbody
      rw [if_neg (not_lt.mpr hshort), hlink]
      exact ih h
    | inr result =>
      rw [hbody] at h
      obtain ⟨rfl, hnone⟩ := eq_of_walkBody_eq_inr hbody
      obtain rfl := Option.some.inj h
      by_cases hlong : 4096 < (Utf8.utf8 result).length
      · rw [if_pos hlong]
      · rw [if_neg hlong, hnone (not_lt.mp hlong)]

/-- **Every walk of the tree browser ends**, with the path the browser is shown. -/
theorem walkReturns_compactPathOf (s : Store) (projectId rootLayerId : ℤ) (start : Text) :
    WalkReturns (queryCompactableDirs s projectId rootLayerId) start
      (compactPathOf (queryCompactableDirs s projectId rootLayerId) start) := by
  set map := queryCompactableDirs s projectId rootLayerId with hmap
  obtain ⟨result, turns, hreturns⟩ := terminates_walk_iff.mpr
    (Or.inl (acyclicChain_queryCompactableDirs s projectId rootLayerId start))
  obtain ⟨current, hloop, -⟩ := Option.map_eq_some_iff.mp hreturns
  have hmore : loop (walkBody map) (max turns 4098) start = some current :=
    loop_eq_some_of_le (le_max_left _ _) hloop
  have hcurrent : walkCompactChain map 4098 start = current := by
    rw [hmap, ← walkCompactChain_queryCompactableDirs s projectId rootLayerId start
      (le_max_right turns 4098)]
    exact walkCompactChain_of_loop hmore
  refine ⟨max turns 4098, ?_⟩
  rw [walkCompactChainIn, hmore, Option.map_some, compactPathOf, hcurrent, ite_not]

end Askl
