import Mathlib.Data.List.Nodup
import Mathlib.Data.List.Basic
import Mathlib.Data.List.Perm.Basic
import Mathlib.Algebra.BigOperators.Group.List.Basic
import Mathlib.Algebra.GroupWithZero.Nat

/-!
# Caches with a least recently used entry

A map that keeps its entries in the order of their last use.  The interface describes each
operation by what it does to the list of the entries, the most recently used first; the
weights of the entries are accounted over that list.

## Main definitions

* `Lru` — the operations of such a map, and what each of them does.
* `Lru.totalWeight` — the sum of the weights of the entries.
* `Lru.ofList` — the map as the list of its entries.

## Main results

* `Lru.totalWeight_put`, `Lru.totalWeight_popLru` — the account of an insertion and of an
  eviction.
-/

namespace LruCache

section Entries

variable {κ ν : Type}

/-- The sum of the weights of a list of entries. -/
def weightOf (weight : ν → ℕ) (l : List (κ × ν)) : ℕ := (l.map fun p => weight p.2).sum

theorem weightOf_cons (weight : ν → ℕ) (p : κ × ν) (l : List (κ × ν)) :
    weightOf weight (p :: l) = weight p.2 + weightOf weight l := by
  simp [weightOf]

variable [DecidableEq κ]

/-- The value a list of entries holds under a key. -/
def findEntry (k : κ) (l : List (κ × ν)) : Option ν :=
  (l.find? fun p => p.1 = k).map (·.2)

/-- A list of entries without a key. -/
def eraseEntry (k : κ) (l : List (κ × ν)) : List (κ × ν) := l.filter fun p => p.1 ≠ k

/-- A list of entries with the entry of a key, if there is one, in front. -/
def touchEntry (k : κ) (l : List (κ × ν)) : List (κ × ν) :=
  (l.filter fun p => p.1 = k) ++ eraseEntry k l

theorem touchEntry_perm (k : κ) (l : List (κ × ν)) : (touchEntry k l).Perm l := by
  unfold touchEntry eraseEntry
  simpa using List.filter_append_perm (fun p : κ × ν => decide (p.1 = k)) l

theorem mem_of_findEntry {k : κ} {l : List (κ × ν)} {v : ν} (h : findEntry k l = some v) :
    (k, v) ∈ l := by
  obtain ⟨p, hp, rfl⟩ := Option.map_eq_some_iff.mp h
  have hkey : p.1 = k := by simpa using List.find?_some hp
  rw [← hkey]
  exact List.mem_of_find?_eq_some hp

/-- The entry of a key and the entries without it add up. -/
theorem weightOf_eraseEntry (weight : ν → ℕ) {k : κ} {l : List (κ × ν)}
    (h : (l.map (·.1)).Nodup) :
    weightOf weight l =
      ((findEntry k l).map weight).getD 0 + weightOf weight (eraseEntry k l) := by
  induction l with
  | nil => rfl
  | cons p l ih =>
    rw [List.map_cons, List.nodup_cons] at h
    by_cases hk : p.1 = k
    · -- no other entry has the key
      have herase : eraseEntry k l = l := by
        unfold eraseEntry
        rw [List.filter_eq_self]
        intro q hq
        have hne : q.1 ≠ k := fun hqk => h.1 (List.mem_map.mpr ⟨q, hq, hqk.trans hk.symm⟩)
        simpa using hne
      have hcons : eraseEntry k (p :: l) = eraseEntry k l := by simp [eraseEntry, hk]
      rw [weightOf_cons, hcons, herase]
      simp [findEntry, hk]
    · have hcons : eraseEntry k (p :: l) = p :: eraseEntry k l := by simp [eraseEntry, hk]
      have hfind : findEntry k (p :: l) = findEntry k l := by simp [findEntry, hk]
      rw [weightOf_cons, hcons, hfind, weightOf_cons, ih h.2]
      omega

end Entries

/-- A cache that evicts the least recently used entry: its operations, each described by the
entries it leaves, the most recently used first. -/
structure Lru (κ ν : Type) [DecidableEq κ] where
  Cache : Type
  entries : Cache → List (κ × ν)
  unbounded : Cache
  get : Cache → κ → Option ν × Cache
  put : Cache → κ → ν → Option ν × Cache
  popLru : Cache → Option (κ × ν) × Cache
  clear : Cache → Cache
  keys_nodup : ∀ c, ((entries c).map (·.1)).Nodup
  entries_unbounded : entries unbounded = []
  get_value : ∀ c k, (get c k).1 = findEntry k (entries c)
  get_entries : ∀ c k, entries (get c k).2 = touchEntry k (entries c)
  put_value : ∀ c k v, (put c k v).1 = findEntry k (entries c)
  put_entries : ∀ c k v, entries (put c k v).2 = (k, v) :: eraseEntry k (entries c)
  popLru_value : ∀ c, (popLru c).1 = (entries c).getLast?
  popLru_entries : ∀ c, entries (popLru c).2 = (entries c).dropLast
  clear_entries : ∀ c, entries (clear c) = []

namespace Lru

variable {κ ν : Type} [DecidableEq κ] (L : Lru κ ν) (weight : ν → ℕ)

/-- The sum of the weights of the entries of a cache. -/
def totalWeight (c : L.Cache) : ℕ := weightOf weight (L.entries c)

@[simp] theorem totalWeight_clear (c : L.Cache) : L.totalWeight weight (L.clear c) = 0 := by
  simp [totalWeight, L.clear_entries, weightOf]

@[simp] theorem totalWeight_unbounded : L.totalWeight weight L.unbounded = 0 := by
  simp [totalWeight, L.entries_unbounded, weightOf]

@[simp] theorem totalWeight_get (c : L.Cache) (k : κ) :
    L.totalWeight weight (L.get c k).2 = L.totalWeight weight c := by
  unfold totalWeight weightOf
  rw [L.get_entries]
  exact ((touchEntry_perm k (L.entries c)).map _).sum_eq

/-- **The account of an insertion**: the new entry comes in, the one it replaces leaves. -/
theorem totalWeight_put (c : L.Cache) (k : κ) (v : ν) :
    L.totalWeight weight (L.put c k v).2 + (((L.put c k v).1).map weight).getD 0 =
      L.totalWeight weight c + weight v := by
  unfold totalWeight
  rw [L.put_entries, L.put_value, weightOf_cons,
    weightOf_eraseEntry (k := k) weight (L.keys_nodup c)]
  dsimp only
  omega

/-- **The account of an eviction.** -/
theorem totalWeight_popLru (c : L.Cache) :
    L.totalWeight weight (L.popLru c).2 + (((L.popLru c).1).map fun p => weight p.2).getD 0 =
      L.totalWeight weight c := by
  unfold totalWeight
  rw [L.popLru_entries, L.popLru_value]
  rcases List.eq_nil_or_concat' (L.entries c) with hnil | ⟨l, p, hl⟩
  · rw [hnil]
    rfl
  · rw [hl]
    simp [weightOf]

/-- A cache from which nothing can be evicted is empty. -/
theorem entries_eq_nil {c : L.Cache} (h : (L.popLru c).1 = none) : L.entries c = [] := by
  rw [L.popLru_value, List.getLast?_eq_none_iff] at h
  exact h

theorem mem_entries_popLru {c : L.Cache} {p : κ × ν} (h : p ∈ L.entries (L.popLru c).2) :
    p ∈ L.entries c := by
  rw [L.popLru_entries] at h
  exact (List.dropLast_sublist _).mem h

theorem length_entries_popLru (c : L.Cache) :
    (L.entries (L.popLru c).2).length = (L.entries c).length - 1 := by
  rw [L.popLru_entries, List.length_dropLast]

/-- The map as the list of its entries. -/
def ofList (κ ν : Type) [DecidableEq κ] : Lru κ ν where
  Cache := {l : List (κ × ν) // (l.map (·.1)).Nodup}
  entries c := c.1
  unbounded := ⟨[], List.nodup_nil⟩
  get c k := (findEntry k c.1, ⟨touchEntry k c.1,
    ((touchEntry_perm k c.1).map (·.1)).nodup_iff.mpr c.2⟩)
  put c k v := (findEntry k c.1, ⟨(k, v) :: eraseEntry k c.1, by
    rw [List.map_cons, List.nodup_cons]
    refine ⟨?_, (List.filter_sublist.map _).nodup c.2⟩
    intro hmem
    obtain ⟨p, hp, hkey⟩ := List.mem_map.mp hmem
    have hne := (List.mem_filter.mp hp).2
    exact absurd hkey (by simpa using hne)⟩)
  popLru c := (c.1.getLast?, ⟨c.1.dropLast, ((List.dropLast_sublist c.1).map (·.1)).nodup c.2⟩)
  clear _ := ⟨[], List.nodup_nil⟩
  keys_nodup c := c.2
  entries_unbounded := rfl
  get_value _ _ := rfl
  get_entries _ _ := rfl
  put_value _ _ _ := rfl
  put_entries _ _ _ := rfl
  popLru_value _ := rfl
  popLru_entries _ := rfl
  clear_entries _ := rfl

end Lru

end LruCache
