import Mathlib.Data.List.AList
import Mathlib.Order.Lattice

/-!
# Maps filled entry by entry

A map is filled in a loop: an element is entered under its key when the key is new, and is
merged into what the key holds otherwise.  What a key holds in the end is a fold over the
elements of that key alone, in their order.

## Main definitions

* `upsert` — enter a value under a key, or change the value that is there.
* `collect` — a map filled in a loop.
* `values` — the values of a map.
* `HashOrder` — an order of iteration.

## Main results

* `lookup_collect` — **what a key holds is folded from the elements of the key.**
* `mem_collect` — the keys are those of the elements.
* `lookup_collect_least` — a merge that keeps the smaller value keeps a least one.
-/

namespace Entries

variable {α κ ν : Type*} [DecidableEq κ]

/-- Enter a value under a key that is new, and change the value of a key that is not:
`entry(k).and_modify(modify).or_insert(v)`. -/
def upsert (m : AList fun _ : κ => ν) (k : κ) (modify : ν → ν) (v : ν) : AList fun _ : κ => ν :=
  match m.lookup k with
  | none => m.insert k v
  | some old => m.insert k (modify old)

/-- A map filled in a loop. -/
def collect (key : α → κ) (init : α → ν) (merge : ν → α → ν) (l : List α) :
    AList fun _ : κ => ν :=
  l.foldl (fun m a => upsert m (key a) (fun old => merge old a) (init a)) ∅

/-- The order in which a hash table hands out what it holds, which may be any. -/
structure HashOrder where
  iter : ∀ {α : Type}, List α → List α
  perm : ∀ {α : Type} (l : List α), (iter l).Perm l

/-- The values of a map. -/
def values (m : AList fun _ : κ => ν) : List ν := m.entries.map (·.2)

/-! ### Lookups -/

/-- What a key holds after some more elements of it. -/
def mergeAll (init : α → ν) (merge : ν → α → ν) : Option ν → List α → Option ν
  | old, [] => old
  | none, a :: l => some (l.foldl merge (init a))
  | some old, l => some (l.foldl merge old)

variable {key : α → κ} {init : α → ν} {merge : ν → α → ν} {m : AList fun _ : κ => ν} {k : κ}

theorem lookup_upsert_self (modify : ν → ν) (v : ν) :
    (upsert m k modify v).lookup k = some ((m.lookup k).elim v modify) := by
  unfold upsert
  cases m.lookup k <;> exact AList.lookup_insert m

theorem lookup_upsert_ne {k' : κ} (h : k' ≠ k) (modify : ν → ν) (v : ν) :
    (upsert m k modify v).lookup k' = m.lookup k' := by
  unfold upsert
  cases m.lookup k <;> exact AList.lookup_insert_ne h

theorem mergeAll_some (old : ν) (l : List α) :
    mergeAll init merge (some old) l = some (l.foldl merge old) := by
  cases l <;> rfl

theorem lookup_foldl_upsert (l : List α) (m : AList fun _ : κ => ν) :
    (l.foldl (fun m a => upsert m (key a) (fun old => merge old a) (init a)) m).lookup k =
      mergeAll init merge (m.lookup k) (l.filter fun a => key a = k) := by
  induction l generalizing m with
  | nil =>
    cases h : m.lookup k <;> simp [mergeAll, h]
  | cons a l ih =>
    rw [List.foldl_cons, ih, List.filter_cons]
    by_cases hk : key a = k
    · subst hk
      rw [lookup_upsert_self, if_pos (decide_eq_true rfl), mergeAll_some]
      cases m.lookup (key a) with
      | none => rfl
      | some old => rw [mergeAll_some]; rfl
    · rw [lookup_upsert_ne (fun h => hk h.symm), if_neg (by simpa using hk)]

/-- What a key holds is folded from the elements of the key, in their order. -/
theorem lookup_collect (l : List α) : (collect key init merge l).lookup k =
    mergeAll init merge none (l.filter fun a => key a = k) :=
  lookup_foldl_upsert l ∅

/-- The keys are those of the elements. -/
theorem mem_collect {l : List α} : k ∈ collect key init merge l ↔ ∃ a ∈ l, key a = k := by
  rw [← AList.lookup_isSome, lookup_collect]
  cases hl : l.filter fun a => key a = k with
  | nil =>
    have hnone := List.filter_eq_nil_iff.mp hl
    simp only [mergeAll, Option.isSome_none, Bool.false_eq_true, false_iff, not_exists, not_and]
    exact fun a ha hk => hnone a ha (decide_eq_true hk)
  | cons a rest =>
    have ha : a ∈ l.filter fun a => key a = k := hl ▸ List.mem_cons_self
    obtain ⟨ha, hk⟩ := List.mem_filter.mp ha
    exact iff_of_true rfl ⟨a, ha, of_decide_eq_true hk⟩

/-- What holds of an element's own value, and is kept when another element of the key is merged
into a value, holds of what a key holds. -/
theorem lookup_collect_induction {P : ν → Prop} {l : List α} {v : ν}
    (hinit : ∀ a ∈ l, key a = k → P (init a))
    (hmerge : ∀ old, P old → ∀ a ∈ l, key a = k → P (merge old a))
    (h : (collect key init merge l).lookup k = some v) : P v := by
  rw [lookup_collect] at h
  have hfilter : ∀ a ∈ l.filter (fun a => key a = k), a ∈ l ∧ key a = k := fun a ha => by
    rwa [List.mem_filter, decide_eq_true_iff] at ha
  generalize l.filter (fun a => key a = k) = own at h hfilter
  cases own with
  | nil => cases h
  | cons a rest =>
    obtain rfl := Option.some.inj h
    obtain ⟨ha, hrest⟩ := List.forall_mem_cons.mp hfilter
    exact List.foldlRecOn rest merge (hinit a ha.1 ha.2) fun old hold b hb =>
      hmerge old hold b (hrest b hb).1 (hrest b hb).2

/-! ### Values -/

/-- A value is that of a key. -/
theorem mem_values {v : ν} : v ∈ values m ↔ ∃ k, m.lookup k = some v := by
  rw [values, List.mem_map]
  constructor
  · rintro ⟨⟨k, v⟩, hmem, rfl⟩
    exact ⟨k, AList.mem_lookup_iff.mpr hmem⟩
  · rintro ⟨k, hk⟩
    exact ⟨⟨k, v⟩, AList.mem_lookup_iff.mp hk, rfl⟩

/-- Values from which their keys can be read do not repeat a key. -/
theorem nodup_values {read : ν → κ} (h : ∀ k v, m.lookup k = some v → read v = k) :
    ((values m).map read).Nodup := by
  have hkeys : (values m).map read = m.keys := by
    rw [values, List.map_map, AList.keys, List.keys]
    refine List.map_congr_left fun e he => ?_
    exact h e.1 e.2 (AList.mem_lookup_iff.mpr he)
  rw [hkeys]
  exact m.keys_nodup

/-! ### The smallest value -/

/-- The values a key goes through are those of its elements, and the last one is least, when a
merge takes an element's own value only where it is smaller. -/
theorem foldl_least {ω : Type*} [LinearOrder ω] (init : α → ν) (size : ν → ω) (l : List α)
    (a : α) : ∃ b ∈ a :: l,
      l.foldl (fun old c => if size (init c) < size old then init c else old) (init a) = init b ∧
        ∀ c ∈ a :: l, size (init b) ≤ size (init c) := by
  induction l generalizing a with
  | nil => exact ⟨a, List.mem_cons_self, rfl, by simp⟩
  | cons c l ih =>
    rw [List.foldl_cons]
    by_cases hlt : size (init c) < size (init a)
    · obtain ⟨b, hmem, hfold, hle⟩ := ih c
      obtain ⟨hc, hle⟩ := List.forall_mem_cons.mp hle
      rw [if_pos hlt]
      exact ⟨b, List.mem_cons_of_mem a hmem, hfold, List.forall_mem_cons.mpr
        ⟨le_trans hc (le_of_lt hlt), List.forall_mem_cons.mpr ⟨hc, hle⟩⟩⟩
    · obtain ⟨b, hmem, hfold, hle⟩ := ih a
      obtain ⟨ha, hle⟩ := List.forall_mem_cons.mp hle
      rw [if_neg hlt]
      refine ⟨b, ?_, hfold, List.forall_mem_cons.mpr
        ⟨ha, List.forall_mem_cons.mpr ⟨le_trans ha (not_lt.mp hlt), hle⟩⟩⟩
      rcases List.mem_cons.mp hmem with rfl | hmem
      · exact List.mem_cons_self
      · exact List.mem_cons_of_mem a (List.mem_cons_of_mem c hmem)

/-- A map that keeps the smaller value of each key holds the least value of an element of the
key. -/
theorem lookup_collect_least {ω : Type*} [LinearOrder ω] (key : α → κ) (init : α → ν)
    (size : ν → ω) {l : List α} {v : ν}
    (h : (collect key init (fun old c => if size (init c) < size old then init c else old)
      l).lookup k = some v) :
    (∃ b ∈ l, key b = k ∧ init b = v) ∧ ∀ c ∈ l, key c = k → size v ≤ size (init c) := by
  rw [lookup_collect] at h
  have hfilter : ∀ c, c ∈ (l.filter fun a => key a = k) ↔ c ∈ l ∧ key c = k := fun c => by
    rw [List.mem_filter, decide_eq_true_iff]
  cases hl : l.filter fun a => key a = k with
  | nil => rw [hl] at h; cases h
  | cons a rest =>
    rw [hl, mergeAll] at h
    obtain ⟨b, hmem, hfold, hle⟩ := foldl_least init size rest a
    obtain rfl := hfold.symm.trans (Option.some.inj h)
    rw [← hl] at hmem hle
    obtain ⟨hmem, hkey⟩ := (hfilter b).mp hmem
    exact ⟨⟨b, hmem, hkey, rfl⟩, fun c hc hck => hle c ((hfilter c).mpr ⟨hc, hck⟩)⟩

end Entries
