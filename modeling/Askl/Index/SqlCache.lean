import Askl.Index.Queries
import Askl.Library.LruCache
import Askl.Library.Runs

/-!
# The cache of query results

Results of reads are kept in memory under a byte budget.  A load that misses takes the
epoch of the cache, reads the database and offers its rows with that epoch; a change of the
index commits and then clears the cache, which advances the epoch, so that rows read before
are turned away.

## Main definitions

* `SqlResultCache` — the cache, with `get`, `epoch`, `putIfEpoch` and `clear`.
* `LoadPhase`, `ServerState` — the loads and the changes of the index under way.
* `ServerState.act` — one action of any of them.
* `Accounted` — the account of the entries is exact and within the budget.
* `FreshSince` — what holds from a clear on.

## Main results

* `accounted_putIfEpoch` — an insertion keeps the account.
* `cacheSafe_of_run` — **a hit after a clear was read after it**, and the account is exact
  and within the budget, in every run.
-/

namespace Askl

open LruCache Runs

/-! ### The cache -/

/-- A byte string. -/
abbrev Digest := List UInt8

/-- `CacheKey`: the digest of the rendered query, and the type of its rows. -/
structure CacheKey where
  sqlHash : Digest
  typeId : ℕ
  deriving DecidableEq, Repr

/-- `Entry`: rows of any type, and their size. -/
structure CacheEntry (ρ : Type) where
  value : ρ
  typeId : ℕ
  bytes : ℕ
  deriving DecidableEq, Repr

variable {ρ : Type} (L : Lru CacheKey (CacheEntry ρ))

/-- `Inner`: what the mutex guards. -/
structure CacheInner where
  map : L.Cache
  usedBytes : ℕ
  epoch : ℕ

/-- `SqlResultCache`, and whether its mutex is poisoned. -/
structure SqlResultCache where
  inner : CacheInner L
  poisoned : Bool
  maxBytes : ℕ

variable {L}

namespace CacheInner

/-- Drop everything and advance the epoch. -/
def reset (inner : CacheInner L) : CacheInner L where
  map := L.clear inner.map
  usedBytes := 0
  epoch := inner.epoch + 1

/-- Evict until the entries fit into a budget, at most as often as the fuel allows. -/
def evict (maxBytes : ℕ) : ℕ → CacheInner L → CacheInner L
  | 0, inner => inner
  | fuel + 1, inner =>
    if maxBytes < inner.usedBytes then match L.popLru inner.map with
      | (some evicted, map) =>
        evict maxBytes fuel { inner with map := map, usedBytes := inner.usedBytes - evicted.2.bytes }
      | (none, map) => { inner with map := map }
    else inner

/-- Enter rows, in the place of those the key had. -/
def insert (inner : CacheInner L) (key : CacheKey) (entry : CacheEntry ρ) : CacheInner L :=
  match L.put inner.map key entry with
  | (old, map) =>
    { inner with
      map := map
      usedBytes := inner.usedBytes - ((old.map (·.bytes)).getD 0) + entry.bytes }

end CacheInner

namespace SqlResultCache

/-- `SqlResultCache::new`. -/
def new (maxBytes : ℕ) : SqlResultCache L where
  inner := ⟨L.unbounded, 0, 0⟩
  poisoned := false
  maxBytes := maxBytes

/-- `is_enabled`. -/
def isEnabled (c : SqlResultCache L) : Bool := 0 < c.maxBytes

/-- `lock`: a poisoned mutex is cleared, and the cache with it. -/
def lock (c : SqlResultCache L) : CacheInner L :=
  if c.poisoned then c.inner.reset else c.inner

/-- Unlock with a new state. -/
def unlock (c : SqlResultCache L) (inner : CacheInner L) : SqlResultCache L :=
  { c with inner := inner, poisoned := false }

/-- `epoch`. -/
def epoch (c : SqlResultCache L) : ℕ × SqlResultCache L := (c.lock.epoch, c.unlock c.lock)

/-- `get`: the rows under a key, if they are of the type asked for. -/
def get (c : SqlResultCache L) (key : CacheKey) (typeId : ℕ) : Option ρ × SqlResultCache L :=
  if c.isEnabled then match L.get c.lock.map key with
    | (some entry, map) =>
      (if entry.typeId = typeId then some entry.value else none,
        c.unlock { c.lock with map := map })
    | (none, map) => (none, c.unlock { c.lock with map := map })
  else (none, c)

/-- `put_if_epoch`. -/
def putIfEpoch (c : SqlResultCache L) (key : CacheKey) (entry : CacheEntry ρ) (epoch : ℕ) :
    SqlResultCache L :=
  if c.isEnabled then
    if c.lock.epoch ≠ epoch then c.unlock c.lock
    else if c.maxBytes < entry.bytes then c.unlock c.lock
    else
      let inner := c.lock.insert key entry
      c.unlock (inner.evict c.maxBytes ((L.entries inner.map).length + 1))
  else c

/-- `clear`. -/
def clear (c : SqlResultCache L) : SqlResultCache L := c.unlock c.lock.reset

end SqlResultCache

/-! ### Loads and changes of the index -/

/-- The queries: their rendering, the type of their rows, what they read from a database,
and the size of the rows. -/
structure Queries (δ Q ρ : Type) where
  sqlHash : Q → Option Digest
  typeId : Q → ℕ
  rows : δ → Q → ρ
  weight : ρ → ℕ

variable {δ Q : Type} (qs : Queries δ Q ρ)

/-- `CacheKey::for_query`: a query that cannot be rendered has no key. -/
def Queries.key (q : Q) : Option CacheKey := (qs.sqlHash q).map fun h => ⟨h, qs.typeId q⟩

/-- How far a call of `cached_load` has come. -/
inductive LoadPhase (Q ρ : Type) where
  | idle
  | called (q : Q)
  | missed (q : Q)
  | snapshotted (q : Q) (epoch : ℕ)
  | loaded (q : Q) (epoch : ℕ) (rows : ρ)
  | hit (q : Q) (rows : ρ)
  | returned (rows : ρ)

/-- How far a change of the index has come: its guard is armed before the transaction, and
clears the cache when it is dropped. -/
inductive MutationPhase where
  | idle
  | armed
  | committed
  deriving DecidableEq, Repr

variable (L δ Q) in
/-- The cache, the database, the loads and the changes of the index. -/
structure ServerState where
  cache : SqlResultCache L
  db : δ
  loads : ℕ → LoadPhase Q ρ
  mutations : ℕ → MutationPhase

variable (L δ Q) in
/-- One action. -/
inductive ServerAction where
  | call (load : ℕ) (q : Q)
  | lookup (load : ℕ)
  | readEpoch (load : ℕ)
  | readRows (load : ℕ)
  | put (load : ℕ)
  | abandon (load : ℕ)
  | arm (mutation : ℕ)
  | commit (mutation : ℕ) (change : δ → δ)
  | dropGuard (mutation : ℕ)
  | poison (inner : CacheInner L)

namespace ServerState

/-- The state before the first request. -/
def initial (db : δ) (maxBytes : ℕ) : ServerState L δ Q where
  cache := .new maxBytes
  db := db
  loads := fun _ => .idle
  mutations := fun _ => .idle

variable (st : ServerState L δ Q)

/-- Move a load on, with a new state of the cache. -/
def moveLoad (i : ℕ) (phase : LoadPhase Q ρ) (cache : SqlResultCache L) : ServerState L δ Q :=
  { st with cache := cache, loads := Function.update st.loads i phase }

@[simp] theorem loads_moveLoad_self (i : ℕ) (phase : LoadPhase Q ρ) (cache : SqlResultCache L) :
    (st.moveLoad i phase cache).loads i = phase := Function.update_self _ _ _

theorem loads_moveLoad_of_ne {i j : ℕ} (h : j ≠ i) (phase : LoadPhase Q ρ)
    (cache : SqlResultCache L) : (st.moveLoad i phase cache).loads j = st.loads j :=
  Function.update_of_ne h _ _

/-- Move a change of the index on. -/
def moveMutation (m : ℕ) (phase : MutationPhase) : ServerState L δ Q :=
  { st with mutations := Function.update st.mutations m phase }

/-- The lookup of a load: a query without a key is not looked up. -/
def lookup (i : ℕ) (q : Q) : ServerState L δ Q :=
  match qs.key q with
  | none => st.moveLoad i (.missed q) st.cache
  | some key => match st.cache.get key (qs.typeId q) with
    | (some rows, cache) => st.moveLoad i (.hit q rows) cache
    | (none, cache) => st.moveLoad i (.missed q) cache

/-- The end of a load that has read its rows. -/
def put (i : ℕ) (q : Q) (epoch : ℕ) (rows : ρ) : ServerState L δ Q :=
  match qs.key q with
  | none => st.moveLoad i (.returned rows) st.cache
  | some key => st.moveLoad i (.returned rows)
      (st.cache.putIfEpoch key ⟨rows, qs.typeId q, qs.weight rows⟩ epoch)

/-- One action, if it is enabled.  A holder of the mutex that panics leaves it poisoned, with
anything in it but an older epoch. -/
def act (st : ServerState L δ Q) : ServerAction L δ Q → Option (ServerState L δ Q)
  | .call i q => match st.loads i with
    | .idle => some (st.moveLoad i (.called q) st.cache)
    | _ => none
  | .lookup i => match st.loads i with
    | .called q => some (st.lookup qs i q)
    | _ => none
  | .readEpoch i => match st.loads i with
    | .missed q => some (st.moveLoad i (.snapshotted q st.cache.epoch.1) st.cache.epoch.2)
    | _ => none
  | .readRows i => match st.loads i with
    | .snapshotted q epoch => some (st.moveLoad i (.loaded q epoch (qs.rows st.db q)) st.cache)
    | _ => none
  | .put i => match st.loads i with
    | .loaded q epoch rows => some (st.put qs i q epoch rows)
    | _ => none
  | .abandon i => some (st.moveLoad i .idle st.cache)
  | .arm m => match st.mutations m with
    | .idle => some (st.moveMutation m .armed)
    | _ => none
  | .commit m change => match st.mutations m with
    | .armed => some { st.moveMutation m .committed with db := change st.db }
    | _ => none
  | .dropGuard m => match st.mutations m with
    | .idle => none
    | _ => some { st.moveMutation m .idle with cache := st.cache.clear }
  | .poison inner =>
    if st.cache.inner.epoch ≤ inner.epoch then
      some { st with cache := { st.cache with inner := inner, poisoned := true } }
    else none

end ServerState

/-! ### The account -/

/-- The account of the entries is exact, and within the budget. -/
structure Accounted (maxBytes : ℕ) (inner : CacheInner L) : Prop where
  exact : inner.usedBytes = L.totalWeight (·.bytes) inner.map
  budget : inner.usedBytes ≤ maxBytes

theorem accounted_reset (maxBytes : ℕ) (inner : CacheInner L) :
    Accounted maxBytes inner.reset where
  exact := by simp [CacheInner.reset]
  budget := Nat.zero_le maxBytes

@[simp] theorem epoch_evict (maxBytes fuel : ℕ) (inner : CacheInner L) :
    (inner.evict maxBytes fuel).epoch = inner.epoch := by
  induction fuel generalizing inner with
  | zero => rfl
  | succ fuel ih =>
    rw [CacheInner.evict]
    split
    · split
      · rw [ih]
      · rfl
    · rfl

theorem mem_entries_evict {maxBytes fuel : ℕ} {inner : CacheInner L}
    {p : CacheKey × CacheEntry ρ} (h : p ∈ L.entries (inner.evict maxBytes fuel).map) :
    p ∈ L.entries inner.map := by
  induction fuel generalizing inner with
  | zero => exact h
  | succ fuel ih =>
    rw [CacheInner.evict] at h
    split at h
    · have hpop : ∀ map, (L.popLru inner.map).2 = map → p ∈ L.entries map →
          p ∈ L.entries inner.map := by
        rintro map rfl hmem
        exact L.mem_entries_popLru hmem
      split at h
      · next heq => exact hpop _ (congrArg Prod.snd heq) (ih h)
      · next heq => exact hpop _ (congrArg Prod.snd heq) h
    · exact h

/-- **Evictions bring the entries into the budget.** -/
theorem accounted_evict {maxBytes fuel : ℕ} {inner : CacheInner L}
    (hfuel : (L.entries inner.map).length < fuel)
    (h : inner.usedBytes = L.totalWeight (·.bytes) inner.map) :
    Accounted maxBytes (inner.evict maxBytes fuel) := by
  induction fuel generalizing inner with
  | zero => exact absurd hfuel (Nat.not_lt_zero _)
  | succ fuel ih =>
    have hweight := L.totalWeight_popLru (·.bytes) inner.map
    rw [CacheInner.evict]
    by_cases hover : maxBytes < inner.usedBytes
    · rw [if_pos hover]
      split
      · next evicted map heq =>
        rw [heq] at hweight
        simp only [Option.map_some, Option.getD_some] at hweight
        refine ih ?_ ?_
        · have hlen := L.length_entries_popLru inner.map
          have hsome : L.entries inner.map ≠ [] := by
            intro hnil
            have hlast := L.popLru_value inner.map
            rw [heq, hnil] at hlast
            cases hlast
          have hpos := List.length_pos_iff.mpr hsome
          rw [heq] at hlen
          dsimp only at hlen ⊢
          omega
        · dsimp only
          omega
      · next map heq =>
        -- nothing is left, and nothing is accounted
        have hnone : (L.popLru inner.map).1 = none := by rw [heq]
        have hzero : L.totalWeight (·.bytes) inner.map = 0 := by
          rw [Lru.totalWeight, L.entries_eq_nil hnone]
          rfl
        omega
    · rw [if_neg hover]
      exact ⟨h, Nat.not_lt.mp hover⟩

theorem mem_entries_insert {inner : CacheInner L} {key : CacheKey} {entry : CacheEntry ρ}
    {p : CacheKey × CacheEntry ρ} (h : p ∈ L.entries (inner.insert key entry).map) :
    p ∈ L.entries inner.map ∨ p = (key, entry) := by
  have hmap : L.entries (inner.insert key entry).map =
      (key, entry) :: eraseEntry key (L.entries inner.map) := L.put_entries inner.map key entry
  rw [hmap] at h
  rcases List.mem_cons.mp h with rfl | h
  · exact Or.inr rfl
  · exact Or.inl (List.mem_filter.mp h).1

/-- An insertion keeps the account exact. -/
theorem exact_insert {inner : CacheInner L} (key : CacheKey) (entry : CacheEntry ρ)
    (h : inner.usedBytes = L.totalWeight (·.bytes) inner.map) :
    (inner.insert key entry).usedBytes =
      L.totalWeight (·.bytes) (inner.insert key entry).map := by
  have hput := L.totalWeight_put (·.bytes) inner.map key entry
  have hold := weightOf_eraseEntry (k := key) (fun e : CacheEntry ρ => e.bytes)
    (L.keys_nodup inner.map)
  rw [← L.put_value inner.map key entry] at hold
  show inner.usedBytes - (((L.put inner.map key entry).1.map (·.bytes)).getD 0) + entry.bytes =
    L.totalWeight (·.bytes) (L.put inner.map key entry).2
  unfold Lru.totalWeight at hput h ⊢
  omega

/-! ### What an operation does to the cache -/

/-- A step of the cache: its entries are some of those before and perhaps new ones. -/
structure SqlCacheStep (c c' : SqlResultCache L) (new : CacheKey × CacheEntry ρ → Prop) : Prop where
  maxBytes : c'.maxBytes = c.maxBytes
  epoch : c.inner.epoch ≤ c'.inner.epoch
  entries : ∀ p ∈ L.entries c'.lock.map, p ∈ L.entries c.lock.map ∨ new p
  accounted : Accounted c.maxBytes c.lock → Accounted c'.maxBytes c'.lock

theorem SqlCacheStep.mono {c c' : SqlResultCache L} {new new' : CacheKey × CacheEntry ρ → Prop}
    (h : SqlCacheStep c c' new) (hle : ∀ p, new p → new' p) : SqlCacheStep c c' new' :=
  ⟨h.maxBytes, h.epoch, fun p hp => (h.entries p hp).imp_right (hle p), h.accounted⟩

section Steps

variable (c : SqlResultCache L) {new : CacheKey × CacheEntry ρ → Prop}

@[simp] theorem lock_unlock (inner : CacheInner L) : (c.unlock inner).lock = inner := rfl

theorem epoch_lock_le : c.inner.epoch ≤ c.lock.epoch := by
  unfold SqlResultCache.lock
  split
  · exact Nat.le_succ _
  · exact le_refl _

theorem SqlCacheStep.refl : SqlCacheStep c c new :=
  ⟨rfl, le_refl _, fun _ hp => Or.inl hp, id⟩

/-- To lock and unlock the cache. -/
theorem SqlCacheStep.relock : SqlCacheStep c (c.unlock c.lock) new where
  maxBytes := rfl
  epoch := epoch_lock_le c
  entries _ hp := Or.inl hp
  accounted h := h

theorem SqlCacheStep.get (key : CacheKey) (typeId : ℕ) :
    SqlCacheStep c (c.get key typeId).2 new := by
  have hlocked : SqlCacheStep c (c.unlock { c.lock with map := (L.get c.lock.map key).2 }) new := by
    refine ⟨rfl, epoch_lock_le c, fun p hp => Or.inl ?_, fun h => ⟨?_, h.budget⟩⟩
    · rw [lock_unlock, L.get_entries] at hp
      exact (touchEntry_perm key _).subset hp
    · rw [lock_unlock, L.totalWeight_get]
      exact h.exact
  unfold SqlResultCache.get
  split
  · split
    · next heq =>
      rw [heq] at hlocked
      exact hlocked
    · next heq =>
      rw [heq] at hlocked
      exact hlocked
  · exact .refl c

theorem SqlCacheStep.clear : SqlCacheStep c c.clear new where
  maxBytes := rfl
  epoch := (epoch_lock_le c).trans (Nat.le_succ _)
  entries p hp := by
    have hnil : L.entries c.clear.lock.map = [] := L.clear_entries _
    rw [hnil] at hp
    cases hp
  accounted _ := accounted_reset _ _

theorem SqlCacheStep.poison {inner : CacheInner L} (h : c.inner.epoch ≤ inner.epoch) :
    SqlCacheStep c { c with inner := inner, poisoned := true } new where
  maxBytes := rfl
  epoch := h
  entries p hp := by
    have hnil : L.entries (SqlResultCache.lock { c with inner := inner, poisoned := true }).map = [] :=
      L.clear_entries _
    rw [hnil] at hp
    cases hp
  accounted _ := accounted_reset _ _

/-- An insertion adds its entry only under the epoch it was read in. -/
theorem SqlCacheStep.putIfEpoch (key : CacheKey) (entry : CacheEntry ρ) (epoch : ℕ) :
    SqlCacheStep c (c.putIfEpoch key entry epoch)
      fun p => p = (key, entry) ∧ c.lock.epoch = epoch := by
  unfold SqlResultCache.putIfEpoch
  split
  · split
    · exact .relock c
    · next hepoch =>
      rw [not_not] at hepoch
      split
      · exact .relock c
      · refine ⟨rfl, ?_, fun p hp => ?_, fun h => ?_⟩
        · show c.inner.epoch ≤ (CacheInner.evict _ _ _).epoch
          rw [epoch_evict]
          exact epoch_lock_le c
        · exact (mem_entries_insert (mem_entries_evict hp)).imp_right fun h => ⟨h, hepoch⟩
        · exact accounted_evict (Nat.lt_succ_self _) (exact_insert key entry h.exact)
  · exact .refl c

end Steps

/-! ### What an action does -/

namespace ServerState

variable {qs}

/-- An entry that holds the rows of a load that has read them in the epoch of the moment. -/
def Offered (qs : Queries δ Q ρ) (st : ServerState L δ Q) (p : CacheKey × CacheEntry ρ) : Prop :=
  ∃ i q, st.loads i = .loaded q st.cache.lock.epoch p.2.value ∧ qs.key q = some p.1 ∧
    p.2.bytes = qs.weight p.2.value

/-- What one action does to the cache and to the loads. -/
structure ActStep (qs : Queries δ Q ρ) (st : ServerState L δ Q) (a : ServerAction L δ Q)
    (st' : ServerState L δ Q) : Prop where
  cache : SqlCacheStep st.cache st'.cache (Offered qs st)
  /-- A new epoch of a load is that of the moment. -/
  snapshotted : ∀ i q e, st'.loads i = .snapshotted q e →
    st.loads i = .snapshotted q e ∨ e = st'.cache.inner.epoch
  /-- New rows of a load are those of the moment. -/
  loaded : ∀ i q e rows, st'.loads i = .loaded q e rows → st.loads i = .loaded q e rows ∨
    a = .readRows i ∧ st.loads i = .snapshotted q e ∧ rows = qs.rows st.db q

/-- A load that moves on to a phase without rows of its own. -/
theorem actStep_moveLoad {st : ServerState L δ Q} {a : ServerAction L δ Q} {i : ℕ}
    {phase : LoadPhase Q ρ} {cache : SqlResultCache L}
    (hcache : SqlCacheStep st.cache cache (Offered qs st))
    (hsnapshotted : ∀ q e, phase = .snapshotted q e → e = cache.inner.epoch)
    (hloaded : ∀ q e rows, phase = .loaded q e rows →
      a = .readRows i ∧ st.loads i = .snapshotted q e ∧ rows = qs.rows st.db q) :
    ActStep qs st a (st.moveLoad i phase cache) := by
  refine ⟨hcache, fun j q e h => ?_, fun j q e rows h => ?_⟩
  · by_cases hj : j = i
    · subst hj
      rw [loads_moveLoad_self] at h
      exact Or.inr (hsnapshotted q e h)
    · rw [loads_moveLoad_of_ne st hj] at h
      exact Or.inl h
  · by_cases hj : j = i
    · subst hj
      rw [loads_moveLoad_self] at h
      exact Or.inr (hloaded q e rows h)
    · rw [loads_moveLoad_of_ne st hj] at h
      exact Or.inl h

/-- An action that leaves the loads as they are. -/
theorem actStep_of_loads_eq {st st' : ServerState L δ Q} {a : ServerAction L δ Q}
    (hcache : SqlCacheStep st.cache st'.cache (Offered qs st)) (hloads : st'.loads = st.loads) :
    ActStep qs st a st' :=
  ⟨hcache, fun _ _ _ h => Or.inl (hloads ▸ h), fun _ _ _ _ h => Or.inl (hloads ▸ h)⟩

/-- A look-up moves entries about, and hands none over. -/
theorem actStep_lookup (st : ServerState L δ Q) (a : ServerAction L δ Q) (i : ℕ) (q : Q) :
    ActStep qs st a (st.lookup qs i q) := by
  unfold lookup
  split
  · exact actStep_moveLoad (.refl _) (by simp) (by simp)
  · next key _ =>
    have hget : SqlCacheStep st.cache (st.cache.get key (qs.typeId q)).2 (Offered qs st) :=
      .get st.cache key (qs.typeId q)
    split
    · next heq =>
      rw [heq] at hget
      exact actStep_moveLoad hget (by simp) (by simp)
    · next heq =>
      rw [heq] at hget
      exact actStep_moveLoad hget (by simp) (by simp)

/-- A put hands over the rows the load has read. -/
theorem actStep_put {st : ServerState L δ Q} (a : ServerAction L δ Q) {i : ℕ} {q : Q} {e : ℕ}
    {rows : ρ} (hphase : st.loads i = .loaded q e rows) :
    ActStep qs st a (st.put qs i q e rows) := by
  unfold put
  split
  · exact actStep_moveLoad (.refl _) (by simp) (by simp)
  · next key hkey =>
    have hput := SqlCacheStep.putIfEpoch st.cache key ⟨rows, qs.typeId q, qs.weight rows⟩ e
    refine actStep_moveLoad (hput.mono ?_) (by simp) (by simp)
    rintro p ⟨rfl, rfl⟩
    exact ⟨i, q, hphase, hkey, rfl⟩

/-- Every action is such a step. -/
theorem act_cases {st st' : ServerState L δ Q} {a : ServerAction L δ Q}
    (h : act qs st a = some st') : ActStep qs st a st' := by
  unfold act at h
  cases a with
  | call i q =>
    dsimp only at h
    split at h
    · obtain rfl := Option.some.inj h
      exact actStep_moveLoad (.refl _) (by simp) (by simp)
    · cases h
  | lookup i =>
    dsimp only at h
    split at h
    · next q _ =>
      obtain rfl := Option.some.inj h
      exact actStep_lookup st _ i q
    · cases h
  | readEpoch i =>
    dsimp only at h
    split at h
    · obtain rfl := Option.some.inj h
      refine actStep_moveLoad (.relock _) (fun q e heq => ?_) (by simp)
      obtain ⟨-, rfl⟩ := LoadPhase.snapshotted.inj heq
      rfl
    · cases h
  | readRows i =>
    dsimp only at h
    split at h
    · next q e hphase =>
      obtain rfl := Option.some.inj h
      refine actStep_moveLoad (.refl _) (by simp) fun q' e' rows heq => ?_
      obtain ⟨rfl, rfl, rfl⟩ := LoadPhase.loaded.inj heq
      exact ⟨rfl, hphase, rfl⟩
    · cases h
  | put i =>
    dsimp only at h
    split at h
    · next q e rows hphase =>
      obtain rfl := Option.some.inj h
      exact actStep_put _ hphase
    · cases h
  | abandon i =>
    obtain rfl := Option.some.inj h
    exact actStep_moveLoad (.refl _) (by simp) (by simp)
  | arm m =>
    dsimp only at h
    split at h
    · obtain rfl := Option.some.inj h
      exact actStep_of_loads_eq (.refl _) rfl
    · cases h
  | commit m change =>
    dsimp only at h
    split at h
    · obtain rfl := Option.some.inj h
      exact actStep_of_loads_eq (.refl _) rfl
    · cases h
  | dropGuard m =>
    dsimp only at h
    split at h
    · cases h
    · obtain rfl := Option.some.inj h
      exact actStep_of_loads_eq (.clear _) rfl
  | poison inner =>
    dsimp only at h
    split at h
    · next hle =>
      obtain rfl := Option.some.inj h
      exact actStep_of_loads_eq (.poison _ hle) rfl
    · cases h

/-! ### What runs keep -/

/-- What every run keeps: the account, and that no load carries an epoch to come. -/
structure ServerInv (qs : Queries δ Q ρ) (maxBytes : ℕ) (st : ServerState L δ Q) : Prop where
  maxBytes : st.cache.maxBytes = maxBytes
  accounted : Accounted st.cache.maxBytes st.cache.lock
  weights : ∀ p ∈ L.entries st.cache.lock.map, p.2.bytes = qs.weight p.2.value
  snapshotted : ∀ i q e, st.loads i = .snapshotted q e → e ≤ st.cache.inner.epoch
  loaded : ∀ i q e rows, st.loads i = .loaded q e rows → e ≤ st.cache.inner.epoch

theorem ServerInv.start (db : δ) (maxBytes : ℕ) :
    ServerInv qs maxBytes (initial db maxBytes : ServerState L δ Q) where
  maxBytes := rfl
  accounted := ⟨(L.totalWeight_unbounded (·.bytes)).symm, Nat.zero_le _⟩
  weights p hp := by
    have hnil : L.entries (initial db maxBytes : ServerState L δ Q).cache.lock.map = [] :=
      L.entries_unbounded
    rw [hnil] at hp
    cases hp
  snapshotted i q e h := by cases h
  loaded i q e rows h := by cases h

theorem ServerInv.act {maxBytes : ℕ} {st st' : ServerState L δ Q} {a : ServerAction L δ Q}
    (h : ServerInv qs maxBytes st) (hact : act qs st a = some st') :
    ServerInv qs maxBytes st' := by
  have hstep := act_cases hact
  refine ⟨hstep.cache.maxBytes.trans h.maxBytes, hstep.cache.accounted h.accounted, ?_, ?_, ?_⟩
  · intro p hp
    rcases hstep.cache.entries p hp with hp | ⟨i, q, -, -, hweight⟩
    · exact h.weights p hp
    · exact hweight
  · intro i q e hphase
    rcases hstep.snapshotted i q e hphase with hphase | rfl
    · exact (h.snapshotted i q e hphase).trans hstep.cache.epoch
    · exact le_refl _
  · intro i q e rows hphase
    rcases hstep.loaded i q e rows hphase with hphase | ⟨-, hphase, -⟩
    · exact (h.loaded i q e rows hphase).trans hstep.cache.epoch
    · exact (h.snapshotted i q e hphase).trans hstep.cache.epoch

theorem ServerInv.run {db : δ} {maxBytes : ℕ} {es : List (ServerAction L δ Q)}
    {st : ServerState L δ Q} (h : trace (ServerState.act qs) (initial db maxBytes) es = some st) :
    ServerInv qs maxBytes st :=
  invariant_of_trace (I := fun _ s => ServerInv qs maxBytes s) (.start db maxBytes)
    (fun _ hm hact => hm.act hact) h

/-- Rows that a load of a query has read from the database in the course of some actions. -/
def ReadIn (qs : Queries δ Q ρ) (start : ServerState L δ Q) (es : List (ServerAction L δ Q))
    (q : Q) (rows : ρ) : Prop :=
  ∃ pre j post s e, es = pre ++ .readRows j :: post ∧ trace (ServerState.act qs) start pre = some s ∧
    s.loads j = .snapshotted q e ∧ rows = qs.rows s.db q

theorem ReadIn.concat {start : ServerState L δ Q} {es : List (ServerAction L δ Q)} {q : Q}
    {rows : ρ} (h : ReadIn qs start es q rows) (a : ServerAction L δ Q) :
    ReadIn qs start (es ++ [a]) q rows := by
  obtain ⟨pre, j, post, s, e, rfl, hs, hphase, hrows⟩ := h
  exact ⟨pre, j, post ++ [a], s, e, by simp, hs, hphase, hrows⟩

/-- What holds from a clear on: the cache holds rows that were read since, and so does every
load that carries an epoch of the time since. -/
structure FreshSince (qs : Queries δ Q ρ) (start : ServerState L δ Q)
    (es : List (ServerAction L δ Q)) (st : ServerState L δ Q) : Prop where
  epoch : start.cache.inner.epoch ≤ st.cache.inner.epoch
  entries : ∀ p ∈ L.entries st.cache.lock.map, ∃ q, qs.key q = some p.1 ∧
    ReadIn qs start es q p.2.value
  loads : ∀ i q e rows, st.loads i = .loaded q e rows → start.cache.inner.epoch ≤ e →
    ReadIn qs start es q rows

/-- After a clear the cache is empty, and every load carries an older epoch. -/
theorem FreshSince.start {maxBytes m : ℕ} {st st' : ServerState L δ Q}
    (h : ServerInv qs maxBytes st) (hact : ServerState.act qs st (.dropGuard m) = some st') :
    FreshSince qs st' [] st' := by
  unfold ServerState.act at hact
  dsimp only at hact
  split at hact
  · cases hact
  · obtain rfl := Option.some.inj hact
    refine ⟨le_refl _, fun p hp => ?_, fun i q e rows hphase hle => ?_⟩
    · have hnil : L.entries st.cache.clear.lock.map = [] := L.clear_entries _
      rw [hnil] at hp
      cases hp
    · have hold : e ≤ st.cache.inner.epoch := h.loaded i q e rows hphase
      have hadvance : st.cache.inner.epoch < st.cache.clear.inner.epoch :=
        Nat.lt_succ_of_le (epoch_lock_le st.cache)
      have hle' : st.cache.clear.inner.epoch ≤ e := hle
      omega

/-- **Every action keeps the cache fresh.**  An insertion counts only if the load took its
epoch after the clear, and read the database after that. -/
theorem FreshSince.act {start st st' : ServerState L δ Q} {es : List (ServerAction L δ Q)}
    {a : ServerAction L δ Q} (h : FreshSince qs start es st)
    (htrace : trace (ServerState.act qs) start es = some st)
    (hact : ServerState.act qs st a = some st') : FreshSince qs start (es ++ [a]) st' := by
  have hstep := act_cases hact
  refine ⟨h.epoch.trans hstep.cache.epoch, fun p hp => ?_, fun i q e rows hphase hle => ?_⟩
  · rcases hstep.cache.entries p hp with hp | ⟨i, q, hphase, hkey, -⟩
    · obtain ⟨q, hkey, hread⟩ := h.entries p hp
      exact ⟨q, hkey, hread.concat a⟩
    · have hle := h.epoch.trans (epoch_lock_le st.cache)
      exact ⟨q, hkey, (h.loads i q _ _ hphase hle).concat a⟩
  · rcases hstep.loaded i q e rows hphase with hphase | ⟨rfl, hphase, hrows⟩
    · exact (h.loads i q e rows hphase hle).concat a
    · exact ⟨es, i, [], st, e, rfl, htrace, hphase, hrows⟩

/-- The rows of a hit are those of an entry under the key of its query. -/
theorem entry_of_hit {st st' : ServerState L δ Q} {i : ℕ} {q : Q} {rows : ρ}
    (hact : ServerState.act qs st (.lookup i) = some st') (hhit : st'.loads i = .hit q rows) :
    ∃ p ∈ L.entries st.cache.lock.map, qs.key q = some p.1 ∧ p.2.value = rows := by
  unfold ServerState.act at hact
  dsimp only at hact
  split at hact
  · next q' _ =>
    obtain rfl := Option.some.inj hact
    unfold lookup at hhit
    split at hhit
    · rw [loads_moveLoad_self] at hhit
      cases hhit
    · next key hkey =>
      split at hhit
      · next rows' cache hget =>
        rw [loads_moveLoad_self] at hhit
        obtain ⟨rfl, rfl⟩ := LoadPhase.hit.inj hhit
        unfold SqlResultCache.get at hget
        split at hget
        · split at hget
          · next entry map heq =>
            have hfound : findEntry key (L.entries st.cache.lock.map) = some entry := by
              rw [← L.get_value, heq]
            obtain ⟨hvalue, -⟩ := Prod.mk.inj hget
            split at hvalue
            · exact ⟨(key, entry), mem_of_findEntry hfound, hkey, Option.some.inj hvalue⟩
            · cases hvalue
          · cases hget
        · cases hget
      · rw [loads_moveLoad_self] at hhit
        cases hhit
  · cases hact

end ServerState

open ServerState

/-- **The cache of query results is safe.**  In every run of loads and changes of the index,
the account of the entries is exact, over their true sizes, and within the budget; and after
a change has been committed and the cache cleared for it, the rows of a hit were read, for a
query with the same key, after the clear, and so after the commit. -/
theorem cacheSafe_of_run {db : δ} {maxBytes : ℕ} {es : List (ServerAction L δ Q)}
    {st : ServerState L δ Q} (h : trace (act qs) (initial db maxBytes) es = some st) :
    (Accounted maxBytes st.cache.lock ∧
      ∀ p ∈ L.entries st.cache.lock.map, p.2.bytes = qs.weight p.2.value) ∧
    ∀ before m change between after,
      es = before ++ .commit m change :: (between ++ .dropGuard m :: after) →
      ∀ i q rows st', act qs st (.lookup i) = some st' → st'.loads i = .hit q rows →
        ∃ pre j post s q' e, after = pre ++ .readRows j :: post ∧
          trace (act qs) (initial db maxBytes)
            (before ++ .commit m change :: (between ++ .dropGuard m :: pre)) = some s ∧
          s.loads j = .snapshotted q' e ∧ qs.key q' = qs.key q ∧ rows = qs.rows s.db q' := by
  have hinv := ServerInv.run h
  refine ⟨⟨hinv.maxBytes ▸ hinv.accounted, hinv.weights⟩, ?_⟩
  rintro before m change between after rfl i q rows st' hact hhit
  have hsplit : ∀ fs : List (ServerAction L δ Q),
      before ++ ServerAction.commit m change :: (between ++ .dropGuard m :: fs) =
        (before ++ .commit m change :: between ++ [.dropGuard m]) ++ fs := by simp
  rw [hsplit] at h
  obtain ⟨mid, hmid, hafter⟩ := trace_append.mp h
  obtain ⟨cleared, hcleared, hclear⟩ := trace_concat.mp hmid
  have hfresh : FreshSince qs mid after st :=
    invariant_of_trace (I := fun fs s => FreshSince qs mid fs s)
      (.start (ServerInv.run hcleared) hclear) (fun htrace hm hact => hm.act htrace hact) hafter
  obtain ⟨p, hp, hkey, rfl⟩ := entry_of_hit hact hhit
  obtain ⟨q', hkey', pre, j, post, s, e, rfl, hs, hphase, hrows⟩ := hfresh.entries p hp
  refine ⟨pre, j, post, s, q', e, rfl, ?_, hphase, hkey'.trans hkey.symm, hrows⟩
  rw [hsplit]
  exact trace_append.mpr ⟨mid, hmid, hs⟩

/-- One query, for a database that is a number. -/
def counterQueries : Queries ℕ Unit ℕ where
  sqlHash _ := some []
  typeId _ := 0
  rows db _ := db
  weight _ := 1

/-- The cache of that query's results. -/
abbrev counterCache : Lru CacheKey (CacheEntry ℕ) := .ofList CacheKey (CacheEntry ℕ)

/-- A load that reads the database before a change. -/
def loadBefore : List (ServerAction counterCache ℕ Unit) :=
  [.call 0 (), .lookup 0, .readEpoch 0, .readRows 0, .arm 7]

/-- After the change, its rows are turned away, and another load fills the cache. -/
def loadAfter : List (ServerAction counterCache ℕ Unit) :=
  [.put 0, .call 1 (), .lookup 1, .readEpoch 1, .readRows 1, .put 1, .call 2 ()]

/-- The third load hits what the second has read after the change. -/
theorem cacheSafe_of_change : ∃ st st' : ServerState counterCache ℕ Unit,
    trace (act counterQueries) (initial 1 10)
        (loadBefore ++ .commit 7 (· + 1) :: ([] ++ .dropGuard 7 :: loadAfter)) = some st ∧
      act counterQueries st (.lookup 2) = some st' ∧ st'.loads 2 = .hit () 2 ∧
      Accounted 10 st.cache.lock ∧
      ∃ pre j post, loadAfter = pre ++ .readRows j :: post := by
  obtain ⟨st', hst', hhit⟩ := Option.map_eq_some_iff.mp
    (show (trace (act counterQueries) (initial 1 10)
      ((loadBefore ++ .commit 7 (· + 1) :: ([] ++ .dropGuard 7 :: loadAfter)) ++
        [.lookup 2])).map (fun st : ServerState counterCache ℕ Unit => st.loads 2) =
      some (.hit () 2) from rfl)
  obtain ⟨st, hst, hact⟩ := trace_concat.mp hst'
  obtain ⟨haccounted, hfresh⟩ := cacheSafe_of_run counterQueries hst
  obtain ⟨pre, j, post, -, -, -, hread, -⟩ :=
    hfresh loadBefore 7 (· + 1) [] loadAfter rfl 2 () 2 st' hact hhit
  exact ⟨st, st', hst, hact, hhit, haccounted.1, pre, j, post, hread⟩

end Askl
