import Askl.Index.EphContext
import Askl.Store.Collection
import Askl.Store.LayerCache
import Askl.Store.LayerKeys

/-!
# The topology of cached layers

A statement's call materialises its layers root by root, each in a transaction of its own:
first the base on the root, then the supplement on the last layer of the root's chain, then
the atoms on the content layers.  A layer is found by its key alone, so the parent and the
base of a layer that is found were written by another call.  Between two transactions of a
call, other calls create layers, and collections delete them.

## Main definitions

* `Roots` — the root layers, with their identity hashes.
* `PartitionedCall`, `RootTask` — a call, and its work for one root.
* `LayerState`, `LayerState.act` — the layers, the calls at work, and what they do.
* `LayerState.hit` — the layer the next transaction of a task will find.
* `SameTopology` — a row as the caller would have written it.
* `TopologyInv` — what every run keeps.

## Main results

* `act_collect` — a collection of the store is one of the actions.
* `TopologyInv.act` — every action keeps the invariant.
* `hit_topology_of_run` — **a layer that is found has the kind and the parent the caller
  would have written; it has the base exactly when the caller's base still exists.**
-/

namespace Askl

open Runs

/-! ### Calls -/

/-- The hash of the canary layer. -/
def canaryHash : Bytes := [0, 99, 97, 110, 97, 114, 121]

/-- The root layers of the projects, with their identity hashes; the index of the hashes is
unique. -/
structure Roots where
  ids : List ℤ
  hash : ℤ → Bytes
  ids_pos : ∀ r ∈ ids, 0 < r
  ids_nodup : ids.Nodup
  hash_nodup : (ids.map hash).Nodup
  hash_ne_canary : ∀ r ∈ ids, hash r ≠ canaryHash

/-- The arguments of `with_partitioned_layers`.  With a scan of the content, the layers that
carry content of a project are those that the call has found among the visible ones. -/
structure PartitionedCall where
  eph : EphContext
  baseHash : Hash32
  supplementExtra : Bytes
  perLayer : Option (ℤ → List ℤ)

/-- The work of a call for one root: the base once it is known, and the layers still to
materialise. -/
structure RootTask where
  rootId : ℤ
  baseHash : Hash32
  extra : Bytes
  base : Option ℤ
  todo : List LayerPart
  deriving DecidableEq

namespace PartitionedCall

variable (c : PartitionedCall)

/-- `content_by_project`. -/
def contentByProject (projectId : ℤ) : List ℤ :=
  if c.eph.hasChain then c.perLayer.elim [] (· projectId) else []

/-- The layers of the call for one root, in the order they are materialised. -/
def parts (r : RootLayer) : List LayerPart :=
  .base :: ((c.eph.chainLast r.id).toList.map .supplement ++
    (c.contentByProject r.projectId).map .perLayer)

/-- The tasks of the call. -/
def tasks : List RootTask :=
  c.eph.roots.map fun r => ⟨r.id, c.baseHash, c.supplementExtra, none, c.parts r⟩

/-- The roots of the call are root layers, its layers have ids of 64 bits, and its content
layers are visible. -/
def Valid (R : Roots) : Prop :=
  (∀ r ∈ c.eph.roots, r.id ∈ R.ids) ∧ (∀ l ∈ c.eph.visibleIds, LittleEndian.Fits 7 l) ∧
    ∀ r ∈ c.eph.roots, ∀ l ∈ c.contentByProject r.projectId, l ∈ c.eph.visibleIds

instance (R : Roots) : Decidable (c.Valid R) := inferInstanceAs (Decidable (_ ∧ _ ∧ _))

end PartitionedCall

namespace RootTask

variable (R : Roots) (sha256 : Bytes → Hash32) (t : RootTask)

/-- The key of a layer of the task. -/
def key (p : LayerPart) : LayerKey := ⟨R.hash t.rootId, t.baseHash, t.extra, p⟩

/-- What the task asks of `with_eph_layer`. -/
def call (p : LayerPart) : LayerCall := match p with
  | .base => ⟨some t.rootId, none, ((t.key R p).hash sha256).val, .ephemeral⟩
  | .supplement parent => ⟨some parent, t.base, ((t.key R p).hash sha256).val, .ephemeral⟩
  | .perLayer lj => ⟨some lj, t.base, ((t.key R p).hash sha256).val, .ephemeral⟩

/-- The task once its next layer is there. -/
def advance (layerId : ℤ) : RootTask := match t.todo with
  | [] => t
  | .base :: rest => { t with base := some layerId, todo := rest }
  | _ :: rest => { t with todo := rest }

/-- The task after an error. -/
def fail : RootTask := { t with todo := [] }

end RootTask

/-! ### States and actions -/

/-- The committed layers, the tasks of all calls, and the layers that open transactions have
inserted, each with the task it is for. -/
structure LayerState where
  layers : List LayerRow
  tasks : List RootTask
  creating : List (ℕ × LayerRow)
  nextLayerId : ℤ

/-- One action: a call starts, a task takes a step, or layers are deleted. -/
inductive LayerAction where
  | call (c : PartitionedCall)
  | openLayer (k : ℕ)
  | commit (k : ℕ) (truncated : Bool)
  | rollback (k : ℕ)
  | collect (dead : List ℤ)
  | purge

namespace LayerState

/-- Before any call: the canary and the roots. -/
def initial (R : Roots) : LayerState where
  layers := ⟨-999999, none, none, canaryHash, .canary, true, false⟩ ::
    R.ids.map fun r => ⟨r, none, none, R.hash r, .root, true, false⟩
  tasks := []
  creating := []
  nextLayerId := -1000000

variable (R : Roots) (sha256 : Bytes → Hash32) (st : LayerState)

/-- The rows of the table, those of open transactions among them. -/
def rows : List LayerRow := st.layers ++ st.creating.map (·.2)

/-- Whether a layer that a row refers to exists. -/
def hasLayer (layerId : Option ℤ) : Bool := layerId.all fun id => st.layers.any (·.id == id)

/-- The next call of a task. -/
def nextCall (k : ℕ) : Option LayerCall :=
  st.tasks[k]?.bind fun t => t.todo.head?.map (t.call R sha256)

/-- The row the next call of a task will find, with the call. -/
def hit (k : ℕ) : Option (LayerCall × LayerRow) :=
  (st.nextCall R sha256 k).bind fun call =>
    (st.layers.find? (·.hash == call.hash)).map fun row => (call, row)

/-- Change a task. -/
def modifyTask (k : ℕ) (f : RootTask → RootTask) : LayerState :=
  { st with tasks := st.tasks.modify k f }

/-- A task's transaction inserts a row, which takes the next id. -/
def insertRow (k : ℕ) (row : LayerRow) : LayerState :=
  { st with creating := st.creating ++ [(k, row)], nextLayerId := st.nextLayerId - 1 }

/-- `create_eph_layer`, once no other transaction works on the key: a populated row is
returned, a missing one is inserted if its parent and its base exist. -/
def openLayer (k : ℕ) : Option LayerState :=
  match st.nextCall R sha256 k with
  | none => none
  | some call =>
    if st.creating.any fun c => c.1 == k || c.2.hash == call.hash then none
    else match st.layers.find? (·.hash == call.hash) with
      | some row =>
        some (st.modifyTask k fun t => if row.populated then t.advance row.id else t.fail)
      | none =>
        if st.hasLayer call.parentId && st.hasLayer call.baseId then
          some (st.insertRow k ⟨st.nextLayerId, call.parentId, call.baseId, call.hash, call.kind,
            false, false⟩)
        else some (st.modifyTask k RootTask.fail)

/-- The creator of a task's layer has populated it, and commits. -/
def commit (k : ℕ) (truncated : Bool) : Option LayerState :=
  match st.creating.find? (·.1 == k) with
  | none => none
  | some c => some
      { st.modifyTask k fun t => t.advance c.2.id with
        layers := st.layers ++ [{ c.2 with populated := true, truncated := truncated }]
        creating := st.creating.eraseP (·.1 == k) }

/-- The creator of a task's layer gives up. -/
def rollback (k : ℕ) : Option LayerState :=
  match st.creating.find? (·.1 == k) with
  | none => none
  | some _ => some
      { st.modifyTask k RootTask.fail with creating := st.creating.eraseP (·.1 == k) }

/-- What a deletion with its cascades can take: layers that are not protected, with all that
have one of them as their parent or base; an open transaction on one of them is waited for. -/
def Collectable (dead : List ℤ) : Prop :=
  (∀ l ∈ st.layers, l.id ∈ dead → l.kind.isProtected = false) ∧
    (∀ l ∈ st.layers, (∃ p ∈ l.parentId, p ∈ dead) ∨ (∃ b ∈ l.baseId, b ∈ dead) → l.id ∈ dead) ∧
    ∀ c ∈ st.creating, (∀ p ∈ c.2.parentId, p ∉ dead) ∧ ∀ b ∈ c.2.baseId, b ∉ dead

instance (dead : List ℤ) : Decidable (st.Collectable dead) :=
  inferInstanceAs (Decidable (_ ∧ _ ∧ _))

/-- `purge_old_eph_layers` or `delete_eph_layer`, once its deletion is through. -/
def collect (dead : List ℤ) : Option LayerState :=
  if st.Collectable dead then
    some { st with layers := st.layers.filter fun l => l.id ∉ dead }
  else none

/-- `purge_eph_cache`: the lock of the table waits for every open transaction. -/
def purge : Option LayerState :=
  if st.creating.isEmpty then
    some { st with layers := st.layers.filter (·.kind.isProtected) }
  else none

/-- One action. -/
def act (st : LayerState) : LayerAction → Option LayerState
  | .call c => if c.Valid R then some { st with tasks := st.tasks ++ c.tasks } else none
  | .openLayer k => st.openLayer R sha256 k
  | .commit k truncated => st.commit k truncated
  | .rollback k => st.rollback k
  | .collect dead => st.collect dead
  | .purge => st.purge

end LayerState

/-! ### What is assumed of the hash -/

/-- The keys that the calls among some actions derive. -/
def keysOf (R : Roots) (es : List LayerAction) : List LayerKey :=
  es.flatMap fun e => match e with
    | .call c => c.tasks.flatMap fun t => t.todo.map (t.key R)
    | _ => []

/-- No two inputs that have been hashed collide, and none collides with the random hash of a
root. -/
structure NoCollisions (R : Roots) (sha256 : Bytes → Hash32) (keys : List LayerKey) : Prop where
  injective : ∀ k ∈ keys, ∀ k' ∈ keys, k.hash sha256 = k'.hash sha256 →
    k.input sha256 = k'.input sha256
  root : ∀ k ∈ keys, ∀ r ∈ R.ids, (k.hash sha256).val ≠ R.hash r

/-- The kind, the parent and the base of a row are those of a call. -/
structure SameTopology (row : LayerRow) (call : LayerCall) : Prop where
  kind : row.kind = call.kind
  parentId : row.parentId = call.parentId
  baseId : row.baseId = call.baseId

/-! ### The invariant -/

section Invariant

variable {R : Roots} {sha256 : Bytes → Hash32}

/-- A row was inserted for a layer of a task: it has the columns of the task's call, and
unless it is a base, the base it is paired with exists and is the one its key speaks of. -/
structure MadeBy (R : Roots) (sha256 : Bytes → Hash32) (keys : List LayerKey)
    (layers : List LayerRow) (l : LayerRow) (t : RootTask) (p : LayerPart) : Prop where
  root : t.rootId ∈ R.ids
  key : t.key R p ∈ keys
  kind : l.kind = .ephemeral
  hash : l.hash = ((t.key R p).hash sha256).val
  parentId : l.parentId = (t.call R sha256 p).parentId
  baseId : l.baseId = (t.call R sha256 p).baseId
  base : p ≠ .base → ∃ b ∈ layers, t.base = some b.id ∧ b.hash = ((t.key R p).salted sha256).val

/-- A task that is at work: its layers have their keys, the base comes first, and an id it
holds as its base is that of no other row, now or later. -/
structure TaskInv (R : Roots) (sha256 : Bytes → Hash32) (keys : List LayerKey)
    (rows : List LayerRow) (next : ℤ) (t : RootTask) : Prop where
  root : t.rootId ∈ R.ids
  keys : ∀ p ∈ t.todo, t.key R p ∈ keys
  baseFirst : ∀ p rest, t.todo = p :: rest → (p ≠ .base → t.base.isSome = true) ∧ .base ∉ rest
  base : ∀ b ∈ t.base, next < b ∧
    ∀ l ∈ rows, l.id = b → l.hash = ((t.key R .base).salted sha256).val

/-- What every run keeps: the ids and the keys of the rows are unique, each row but the
canary's and the roots' was inserted for a task, and an open transaction is for the next layer
of its task. -/
structure TopologyInv (R : Roots) (sha256 : Bytes → Hash32) (keys : List LayerKey)
    (st : LayerState) : Prop where
  fits : ∀ k ∈ keys, k.part.Fits
  ids_nodup : (st.rows.map (·.id)).Nodup
  hash_nodup : (st.rows.map (·.hash)).Nodup
  fresh : ∀ l ∈ st.rows, st.nextLayerId < l.id
  origin : ∀ l ∈ st.rows, l ∈ (LayerState.initial R).layers ∨
    ∃ t p, MadeBy R sha256 keys st.layers l t p
  tasks : ∀ t ∈ st.tasks, TaskInv R sha256 keys st.rows st.nextLayerId t
  owners_nodup : (st.creating.map (·.1)).Nodup
  creating : ∀ c ∈ st.creating, ∃ t p rest, st.tasks[c.1]? = some t ∧ t.todo = p :: rest ∧
    MadeBy R sha256 keys st.layers c.2 t p

/-! #### Rows and tasks -/

variable {st st' : LayerState} {keys keys' : List LayerKey} {t : RootTask} {p : LayerPart}
  {l : LayerRow} {k : ℕ}

@[simp] theorem RootTask.call_hash : (t.call R sha256 p).hash = ((t.key R p).hash sha256).val := by
  cases p <;> rfl

@[simp] theorem RootTask.call_kind : (t.call R sha256 p).kind = .ephemeral := by
  cases p <;> rfl

theorem RootTask.call_baseId (hp : p ≠ .base) : (t.call R sha256 p).baseId = t.base := by
  cases p with
  | base => exact absurd rfl hp
  | supplement _ | perLayer _ => rfl

@[simp] theorem rows_modifyTask (f : RootTask → RootTask) : (st.modifyTask k f).rows = st.rows :=
  rfl

theorem mem_rows : l ∈ st.rows ↔ l ∈ st.layers ∨ ∃ c ∈ st.creating, c.2 = l := by
  rw [LayerState.rows, List.mem_append, List.mem_map]

/-- A row of the table with the id of another row is that row. -/
theorem TopologyInv.eq_of_id (h : TopologyInv R sha256 keys st) {l' : LayerRow} (hl : l ∈ st.rows)
    (hl' : l' ∈ st.rows) (hid : l.id = l'.id) : l = l' :=
  eq_of_key h.ids_nodup hl hl' hid

/-- A row of the table with the key of another row is that row. -/
theorem TopologyInv.eq_of_hash (h : TopologyInv R sha256 keys st) {l' : LayerRow}
    (hl : l ∈ st.rows) (hl' : l' ∈ st.rows) (hhash : l.hash = l'.hash) : l = l' :=
  List.inj_on_of_nodup_map h.hash_nodup hl hl' hhash

theorem MadeBy.mono {layers layers' : List LayerRow} (h : MadeBy R sha256 keys layers l t p)
    (hkeys : keys ⊆ keys') (hlayers : layers ⊆ layers') :
    MadeBy R sha256 keys' layers' l t p where
  root := h.root
  key := hkeys h.key
  kind := h.kind
  hash := h.hash
  parentId := h.parentId
  baseId := h.baseId
  base hp := by
    obtain ⟨b, hb, hid, hhash⟩ := h.base hp
    exact ⟨b, hlayers hb, hid, hhash⟩

/-- A deletion that spares the base of a row leaves the row in order. -/
theorem MadeBy.filter {layers : List LayerRow} {dead : List ℤ}
    (h : MadeBy R sha256 keys layers l t p) (hbase : ∀ b ∈ l.baseId, b ∉ dead) :
    MadeBy R sha256 keys (layers.filter fun l => l.id ∉ dead) l t p where
  root := h.root
  key := h.key
  kind := h.kind
  hash := h.hash
  parentId := h.parentId
  baseId := h.baseId
  base hp := by
    obtain ⟨b, hb, hid, hhash⟩ := h.base hp
    have hcall : l.baseId = some b.id := by
      rw [h.baseId, RootTask.call_baseId hp, hid]
    exact ⟨b, List.mem_filter.mpr ⟨hb, decide_eq_true (hbase b.id hcall)⟩, hid, hhash⟩

theorem TaskInv.mono {rows rows' : List LayerRow} {next next' : ℤ}
    (h : TaskInv R sha256 keys rows next t) (hkeys : keys ⊆ keys') (hnext : next' ≤ next)
    (hrows : ∀ l ∈ rows', next < l.id → ∃ l₀ ∈ rows, l₀.id = l.id ∧ l₀.hash = l.hash) :
    TaskInv R sha256 keys' rows' next' t where
  root := h.root
  keys p hp := hkeys (h.keys p hp)
  baseFirst := h.baseFirst
  base b hb := by
    obtain ⟨hlt, hhash⟩ := h.base b hb
    refine ⟨by omega, fun l hl hid => ?_⟩
    obtain ⟨l₀, hl₀, hid₀, hhash₀⟩ := hrows l hl (hid ▸ hlt)
    rw [← hhash₀]
    exact hhash l₀ hl₀ (hid₀.trans hid)

theorem TaskInv.fail {rows : List LayerRow} {next : ℤ} (h : TaskInv R sha256 keys rows next t) :
    TaskInv R sha256 keys rows next t.fail where
  root := h.root
  keys p hp := by cases hp
  baseFirst p rest heq := by cases heq
  base := h.base

/-- The next layer of a task is there; if it is the base, the task holds its id. -/
theorem TaskInv.advance {rows : List LayerRow} {next id : ℤ} {rest : List LayerPart}
    (h : TaskInv R sha256 keys rows next t) (htodo : t.todo = p :: rest)
    (hbase : p = .base → next < id ∧
      ∀ l ∈ rows, l.id = id → l.hash = ((t.key R .base).salted sha256).val) :
    TaskInv R sha256 keys rows next (t.advance id) := by
  have hfirst := h.baseFirst p rest htodo
  have hkeys : ∀ q ∈ rest, t.key R q ∈ keys := fun q hq =>
    h.keys q (htodo ▸ List.mem_cons_of_mem p hq)
  have hrest : ∀ q rest', rest = q :: rest' → q ≠ .base ∧ .base ∉ rest' := by
    rintro q rest' rfl
    have hnot := hfirst.2
    rw [List.mem_cons, not_or] at hnot
    exact ⟨fun hq => hnot.1 hq.symm, hnot.2⟩
  unfold RootTask.advance
  rw [htodo]
  cases p with
  | base =>
    refine ⟨h.root, hkeys, fun q rest' heq => ⟨fun _ => rfl, (hrest q rest' heq).2⟩, ?_⟩
    rintro b hb
    obtain rfl : id = b := Option.some.inj hb
    exact hbase rfl
  | supplement _ | perLayer _ =>
    have hsome := hfirst.1 (by simp)
    exact ⟨h.root, hkeys, fun q rest' heq => ⟨fun _ => hsome, (hrest q rest' heq).2⟩, h.base⟩

/-- A change of one task. -/
theorem forall_modify {P : RootTask → Prop} {ts : List RootTask} {f : RootTask → RootTask}
    (h : ∀ t ∈ ts, P t) (hk : ∀ t, ts[k]? = some t → P (f t)) : ∀ t ∈ ts.modify k f, P t := by
  intro t ht
  obtain ⟨j, hj⟩ := List.mem_iff_getElem?.mp ht
  by_cases hjk : k = j
  · rw [← hjk, List.getElem?_modify_eq] at hj
    obtain ⟨t₀, ht₀, rfl⟩ := Option.map_eq_some_iff.mp hj
    exact hk t₀ ht₀
  · rw [List.getElem?_modify_ne _ _ hjk] at hj
    exact h t (List.mem_of_getElem? hj)

/-- The element a search finds is the one that an erasure takes away. -/
theorem perm_eraseP_of_find? {α : Type*} {p : α → Bool} {a : α} {xs : List α}
    (h : xs.find? p = some a) : xs.Perm (a :: xs.eraseP p) := by
  induction xs with
  | nil => cases h
  | cons x xs ih =>
    rw [List.find?_cons] at h
    cases hx : p x with
    | true =>
      rw [hx] at h
      obtain rfl : x = a := Option.some.inj h
      rw [List.eraseP_cons_of_pos hx]
    | false =>
      rw [hx] at h
      rw [List.eraseP_cons_of_neg (by simp [hx])]
      exact ((ih h).cons x).trans (List.Perm.swap a x _)

/-! #### The actions -/

namespace TopologyInv

theorem initial : TopologyInv R sha256 [] (LayerState.initial R) where
  fits k hk := by cases hk
  ids_nodup := by
    simp only [LayerState.rows, LayerState.initial, List.map_nil, List.append_nil, List.map_cons,
      List.map_map, List.nodup_cons]
    constructor
    · intro hmem
      obtain ⟨r, hr, hid⟩ := List.mem_map.mp hmem
      have hpos := R.ids_pos r hr
      have hneg : r = -999999 := hid
      omega
    · have hid : ((fun l : LayerRow => l.id) ∘ fun r => ⟨r, none, none, R.hash r, .root, true,
          false⟩) = id := rfl
      rw [hid, List.map_id]
      exact R.ids_nodup
  hash_nodup := by
    simp only [LayerState.rows, LayerState.initial, List.map_nil, List.append_nil, List.map_cons,
      List.map_map, List.nodup_cons]
    constructor
    · intro hmem
      obtain ⟨r, hr, hhash⟩ := List.mem_map.mp hmem
      exact R.hash_ne_canary r hr hhash
    · exact R.hash_nodup
  fresh l hl := by
    rw [LayerState.rows, List.mem_append] at hl
    rcases hl with hl | hl
    · rcases List.mem_cons.mp hl with rfl | hl
      · show (-1000000 : ℤ) < -999999
        omega
      · obtain ⟨r, hr, rfl⟩ := List.mem_map.mp hl
        have hpos := R.ids_pos r hr
        show (-1000000 : ℤ) < r
        omega
    · cases hl
  origin l hl := by
    rw [LayerState.rows, List.mem_append] at hl
    exact Or.inl (hl.resolve_right (by simp [LayerState.initial]))
  tasks t ht := by cases ht
  owners_nodup := List.nodup_nil
  creating c hc := by cases hc

/-- More keys are known. -/
theorem mono (h : TopologyInv R sha256 keys st) (hkeys : keys ⊆ keys')
    (hfits : ∀ k ∈ keys', k.part.Fits) : TopologyInv R sha256 keys' st where
  fits := hfits
  ids_nodup := h.ids_nodup
  hash_nodup := h.hash_nodup
  fresh := h.fresh
  origin l hl := by
    rcases h.origin l hl with horig | ⟨t, p, hmade⟩
    · exact Or.inl horig
    · exact Or.inr ⟨t, p, hmade.mono hkeys fun _ hx => hx⟩
  tasks t ht := (h.tasks t ht).mono hkeys le_rfl fun l hl _ => ⟨l, hl, rfl, rfl⟩
  owners_nodup := h.owners_nodup
  creating c hc := by
    obtain ⟨t, p, rest, ht, htodo, hmade⟩ := h.creating c hc
    exact ⟨t, p, rest, ht, htodo, hmade.mono hkeys fun _ hx => hx⟩

/-- New tasks join. -/
theorem addTasks (h : TopologyInv R sha256 keys st) {ts : List RootTask}
    (hts : ∀ t ∈ ts, TaskInv R sha256 keys st.rows st.nextLayerId t) :
    TopologyInv R sha256 keys { st with tasks := st.tasks ++ ts } where
  fits := h.fits
  ids_nodup := h.ids_nodup
  hash_nodup := h.hash_nodup
  fresh := h.fresh
  origin := h.origin
  tasks t ht := (List.mem_append.mp ht).elim (h.tasks t) (hts t)
  owners_nodup := h.owners_nodup
  creating c hc := by
    obtain ⟨t, p, rest, ht, htodo, hmade⟩ := h.creating c hc
    refine ⟨t, p, rest, ?_, htodo, hmade⟩
    rw [List.getElem?_append_left (List.getElem?_eq_some_iff.mp ht).1]
    exact ht

/-- A task without an open transaction goes on. -/
theorem modifyTask (h : TopologyInv R sha256 keys st) {f : RootTask → RootTask}
    (hk : ∀ c ∈ st.creating, c.1 ≠ k)
    (hf : ∀ t, st.tasks[k]? = some t → TaskInv R sha256 keys st.rows st.nextLayerId (f t)) :
    TopologyInv R sha256 keys (st.modifyTask k f) where
  fits := h.fits
  ids_nodup := h.ids_nodup
  hash_nodup := h.hash_nodup
  fresh := h.fresh
  origin := h.origin
  tasks := forall_modify h.tasks hf
  owners_nodup := h.owners_nodup
  creating c hc := by
    obtain ⟨t, p, rest, ht, htodo, hmade⟩ := h.creating c hc
    refine ⟨t, p, rest, ?_, htodo, hmade⟩
    show (st.tasks.modify k f)[c.1]? = some t
    rw [List.getElem?_modify_ne _ _ (hk c hc).symm]
    exact ht

/-- A layer of a call that has come to an end leaves the table or was never there. -/
theorem dropRows (h : TopologyInv R sha256 keys st) {layers : List LayerRow}
    {creating : List (ℕ × LayerRow)} (hl : layers.Sublist st.layers)
    (hc : creating.Sublist st.creating)
    (hmade : ∀ l t p, (l ∈ layers ∨ ∃ c ∈ creating, c.2 = l) →
      MadeBy R sha256 keys st.layers l t p → MadeBy R sha256 keys layers l t p) :
    TopologyInv R sha256 keys { st with layers := layers, creating := creating } where
  fits := h.fits
  ids_nodup := ((hl.append (hc.map _)).map _).nodup h.ids_nodup
  hash_nodup := ((hl.append (hc.map _)).map _).nodup h.hash_nodup
  fresh l hmem := h.fresh l ((hl.append (hc.map _)).subset hmem)
  origin l hmem := by
    rcases h.origin l ((hl.append (hc.map _)).subset hmem) with horig | ⟨t, p, hm⟩
    · exact Or.inl horig
    · exact Or.inr ⟨t, p, hmade l t p (mem_rows.mp hmem) hm⟩
  tasks t ht := (h.tasks t ht).mono (fun _ hx => hx) le_rfl fun l hmem _ =>
    ⟨l, (hl.append (hc.map _)).subset hmem, rfl, rfl⟩
  owners_nodup := (hc.map _).nodup h.owners_nodup
  creating c hmem := by
    obtain ⟨t, p, rest, ht, htodo, hm⟩ := h.creating c (hc.subset hmem)
    exact ⟨t, p, rest, ht, htodo, hmade _ t p (Or.inr ⟨c, hmem, rfl⟩) hm⟩

/-- A new row has a key and an id of its own. -/
theorem insertRow (h : TopologyInv R sha256 keys st) {row : LayerRow} {rest : List LayerPart}
    (ht : st.tasks[k]? = some t) (htodo : t.todo = p :: rest)
    (hmade : MadeBy R sha256 keys st.layers row t p) (hid : row.id = st.nextLayerId)
    (hhash : ∀ l ∈ st.rows, l.hash ≠ row.hash) (hk : ∀ c ∈ st.creating, c.1 ≠ k) :
    TopologyInv R sha256 keys (st.insertRow k row) := by
  have hrows : (st.insertRow k row).rows = st.rows ++ [row] := by
    simp only [LayerState.rows, LayerState.insertRow, List.map_append, List.map_cons,
      List.map_nil, List.append_assoc]
  refine ⟨h.fits, ?_, ?_, ?_, ?_, ?_, ?_, ?_⟩
  · rw [hrows, List.map_append, List.nodup_append]
    refine ⟨h.ids_nodup, List.nodup_singleton _, ?_⟩
    rintro a ha b hb rfl
    obtain ⟨l, hl, hla⟩ := List.mem_map.mp ha
    obtain rfl : a = row.id := List.mem_singleton.mp hb
    have hlt := h.fresh l hl
    omega
  · rw [hrows, List.map_append, List.nodup_append]
    refine ⟨h.hash_nodup, List.nodup_singleton _, ?_⟩
    rintro a ha b hb rfl
    obtain ⟨l, hl, hla⟩ := List.mem_map.mp ha
    obtain rfl : a = row.hash := List.mem_singleton.mp hb
    exact hhash l hl hla
  · intro l hl
    rw [hrows, List.mem_append, List.mem_singleton] at hl
    show st.nextLayerId - 1 < l.id
    rcases hl with hl | rfl
    · have hlt := h.fresh l hl
      omega
    · omega
  · intro l hl
    rw [hrows, List.mem_append, List.mem_singleton] at hl
    rcases hl with hl | rfl
    · exact h.origin l hl
    · exact Or.inr ⟨t, p, hmade⟩
  · intro t' ht'
    refine (h.tasks t' ht').mono (fun _ hx => hx) (by show st.nextLayerId - 1 ≤ _; omega) ?_
    intro l hl hlt
    rw [hrows, List.mem_append, List.mem_singleton] at hl
    rcases hl with hl | rfl
    · exact ⟨l, hl, rfl, rfl⟩
    · omega
  · show ((st.creating ++ [(k, row)]).map (·.1)).Nodup
    rw [List.map_append, List.nodup_append]
    refine ⟨h.owners_nodup, List.nodup_singleton _, ?_⟩
    rintro a ha b hb rfl
    obtain ⟨c, hc, hca⟩ := List.mem_map.mp ha
    exact hk c hc (hca.trans (List.mem_singleton.mp hb))
  · intro c hc
    rcases List.mem_append.mp hc with hc | hc
    · exact h.creating c hc
    · obtain rfl : c = (k, row) := List.mem_singleton.mp hc
      exact ⟨t, p, rest, ht, htodo, hmade⟩

/-- The other open transactions are for other tasks. -/
theorem owner_ne (h : TopologyInv R sha256 keys st) {c : ℕ × LayerRow}
    (hc : st.creating.find? (·.1 == k) = some c) :
    ∀ c' ∈ st.creating.eraseP (·.1 == k), c'.1 ≠ k := by
  intro c' hc' hk
  have hperm := (perm_eraseP_of_find? hc).map Prod.fst
  have hnd := hperm.nodup_iff.mp h.owners_nodup
  rw [List.map_cons, List.nodup_cons] at hnd
  have hck : c.1 = k := by simpa using List.find?_some hc
  exact hnd.1 (List.mem_map.mpr ⟨c', hc', hk.trans hck.symm⟩)

/-- A row that is committed is the one that was inserted, marked. -/
theorem commitRow (h : TopologyInv R sha256 keys st) {c : ℕ × LayerRow} {row : LayerRow}
    (hc : st.creating.find? (·.1 == k) = some c) (hid : row.id = c.2.id)
    (hhash : row.hash = c.2.hash)
    (hmade : ∀ {layers t p}, MadeBy R sha256 keys layers c.2 t p →
      MadeBy R sha256 keys layers row t p) :
    TopologyInv R sha256 keys { st.modifyTask k fun t => t.advance c.2.id with
      layers := st.layers ++ [row], creating := st.creating.eraseP (·.1 == k) } := by
  have hck : c.1 = k := by simpa using List.find?_some hc
  have hcmem : c ∈ st.creating := List.mem_of_find?_eq_some hc
  obtain ⟨t, p, rest, ht, htodo, hctp⟩ := h.creating c hcmem
  have hperm := perm_eraseP_of_find? hc
  have hothers := h.owner_ne hc
  -- the columns that the mark leaves alone are those of before, in another order
  have hcolumn : ∀ {β : Type} (f : LayerRow → β), f row = f c.2 →
      (((st.layers ++ [row]) ++ (st.creating.eraseP (·.1 == k)).map (·.2)).map f).Perm
        (st.rows.map f) := by
    intro β f hf
    simp only [LayerState.rows, List.append_assoc, List.map_append]
    refine List.Perm.append_left _ ?_
    rw [List.map_singleton, List.singleton_append, hf]
    exact ((hperm.map Prod.snd).map f).symm
  have hrows : ∀ l ∈ (st.layers ++ [row]) ++ (st.creating.eraseP (·.1 == k)).map (·.2),
      l = row ∨ l ∈ st.rows := by
    intro l hl
    rcases List.mem_append.mp hl with hl | hl
    · rcases List.mem_append.mp hl with hl | hl
      · exact Or.inr (mem_rows.mpr (Or.inl hl))
      · exact Or.inl (List.mem_singleton.mp hl)
    · obtain ⟨c', hc', rfl⟩ := List.mem_map.mp hl
      exact Or.inr (mem_rows.mpr (Or.inr ⟨c', List.mem_of_mem_eraseP hc', rfl⟩))
  have hcrow : c.2 ∈ st.rows := mem_rows.mpr (Or.inr ⟨c, hcmem, rfl⟩)
  have hbefore : ∀ l ∈ (st.layers ++ [row]) ++ (st.creating.eraseP (·.1 == k)).map (·.2),
      ∃ l₀ ∈ st.rows, l₀.id = l.id ∧ l₀.hash = l.hash := by
    intro l hl
    rcases hrows l hl with rfl | hl
    · exact ⟨c.2, hcrow, hid.symm, hhash.symm⟩
    · exact ⟨l, hl, rfl, rfl⟩
  have hlayers : st.layers ⊆ st.layers ++ [row] := List.subset_append_left _ _
  refine ⟨h.fits, (hcolumn _ hid).nodup_iff.mpr h.ids_nodup,
    (hcolumn _ hhash).nodup_iff.mpr h.hash_nodup, ?_, ?_, ?_, ?_, ?_⟩
  · intro l hl
    obtain ⟨l₀, hl₀, hid₀, -⟩ := hbefore l hl
    rw [← hid₀]
    exact h.fresh l₀ hl₀
  · intro l hl
    rcases hrows l hl with rfl | hl
    · exact Or.inr ⟨t, p, (hmade hctp).mono (fun _ hx => hx) hlayers⟩
    · rcases h.origin l hl with horig | ⟨t', p', hm⟩
      · exact Or.inl horig
      · exact Or.inr ⟨t', p', hm.mono (fun _ hx => hx) hlayers⟩
  · have hall : ∀ t' ∈ st.tasks, TaskInv R sha256 keys
        ((st.layers ++ [row]) ++ (st.creating.eraseP (·.1 == k)).map (·.2)) st.nextLayerId t' :=
      fun t' ht' => (h.tasks t' ht').mono (fun _ hx => hx) le_rfl fun l hl _ => hbefore l hl
    refine forall_modify hall fun t' ht' => ?_
    obtain rfl : t = t' := Option.some.inj (ht.symm.trans (hck ▸ ht'))
    refine (hall t (List.mem_of_getElem? ht')).advance htodo fun hp => ⟨h.fresh _ hcrow, ?_⟩
    intro l hl hlid
    obtain ⟨l₀, hl₀, hid₀, hhash₀⟩ := hbefore l hl
    have heq : l₀ = c.2 := h.eq_of_id hl₀ hcrow (hid₀.trans hlid)
    rw [← hhash₀, heq, hctp.hash, LayerKey.hash_of_base hp]
    rfl
  · exact (List.eraseP_sublist.map _).nodup h.owners_nodup
  · intro c' hc'
    obtain ⟨t', p', rest', ht', htodo', hm⟩ := h.creating c' (List.mem_of_mem_eraseP hc')
    refine ⟨t', p', rest', ?_, htodo', hm.mono (fun _ hx => hx) hlayers⟩
    show (st.tasks.modify k _)[c'.1]? = some t'
    rw [List.getElem?_modify_ne _ _ (hothers c' hc').symm]
    exact ht'

theorem commit (h : TopologyInv R sha256 keys st) {truncated : Bool}
    (hact : st.commit k truncated = some st') : TopologyInv R sha256 keys st' := by
  unfold LayerState.commit at hact
  split at hact
  · cases hact
  · next c hc =>
    obtain rfl := Option.some.inj hact
    refine h.commitRow hc rfl rfl fun hm => ?_
    exact ⟨hm.root, hm.key, hm.kind, hm.hash, hm.parentId, hm.baseId, hm.base⟩

theorem rollback (h : TopologyInv R sha256 keys st) (hact : st.rollback k = some st') :
    TopologyInv R sha256 keys st' := by
  unfold LayerState.rollback at hact
  split at hact
  · cases hact
  · next c hc =>
    obtain rfl := Option.some.inj hact
    have hdrop : TopologyInv R sha256 keys
        { st with layers := st.layers, creating := st.creating.eraseP (·.1 == k) } :=
      h.dropRows (List.Sublist.refl _) List.eraseP_sublist fun _ _ _ _ hm => hm
    exact hdrop.modifyTask (h.owner_ne hc) fun t ht =>
      (hdrop.tasks t (List.mem_of_getElem? ht)).fail

theorem collect (h : TopologyInv R sha256 keys st) {dead : List ℤ}
    (hact : st.collect dead = some st') : TopologyInv R sha256 keys st' := by
  unfold LayerState.collect at hact
  split at hact
  · next hdead =>
    obtain rfl := Option.some.inj hact
    obtain ⟨-, hcascade, hwait⟩ := hdead
    refine h.dropRows List.filter_sublist (List.Sublist.refl _) fun l t p hl hm => ?_
    refine hm.filter fun b hb hbdead => ?_
    rcases hl with hl | ⟨c, hc, rfl⟩
    · -- the layer would have gone with its base
      obtain ⟨hl, hkeep⟩ := List.mem_filter.mp hl
      exact of_decide_eq_true hkeep (hcascade l hl (Or.inr ⟨b, hb, hbdead⟩))
    · exact (hwait c hc).2 b hb hbdead
  · cases hact

theorem purge (h : TopologyInv R sha256 keys st) (hact : st.purge = some st') :
    TopologyInv R sha256 keys st' := by
  unfold LayerState.purge at hact
  split at hact
  · next hempty =>
    obtain rfl := Option.some.inj hact
    refine h.dropRows List.filter_sublist (List.Sublist.refl _) fun l t p hl hm => ?_
    rcases hl with hl | ⟨c, hc, rfl⟩
    · have hprot := (List.mem_filter.mp hl).2
      rw [hm.kind] at hprot
      cases hprot
    · rw [List.isEmpty_iff.mp hempty] at hc
      cases hc
  · cases hact

/-- A call is at its next layer. -/
theorem nextCall_eq_some {call : LayerCall} (h : st.nextCall R sha256 k = some call) :
    ∃ t p rest, st.tasks[k]? = some t ∧ t.todo = p :: rest ∧ call = t.call R sha256 p := by
  unfold LayerState.nextCall at h
  obtain ⟨t, ht, h⟩ := Option.bind_eq_some_iff.mp h
  obtain ⟨p, hp, rfl⟩ := Option.map_eq_some_iff.mp h
  obtain ⟨rest, htodo⟩ := List.head?_eq_some_iff.mp hp
  exact ⟨t, p, rest, ht, htodo, rfl⟩

theorem hasLayer_eq_true {id : ℤ} (h : st.hasLayer (some id) = true) :
    ∃ l ∈ st.layers, l.id = id := by
  obtain ⟨l, hl, hid⟩ := List.any_eq_true.mp h
  exact ⟨l, hl, by simpa using hid⟩

/-- The row that a transaction inserts is made by its task. -/
theorem madeBy_insert (h : TopologyInv R sha256 keys st) {rest : List LayerPart}
    (ht : st.tasks[k]? = some t) (htodo : t.todo = p :: rest)
    (hbase : st.hasLayer (t.call R sha256 p).baseId = true) (id : ℤ) (populated truncated : Bool) :
    MadeBy R sha256 keys st.layers ⟨id, (t.call R sha256 p).parentId, (t.call R sha256 p).baseId,
      (t.call R sha256 p).hash, (t.call R sha256 p).kind, populated, truncated⟩ t p := by
  have htask := h.tasks t (List.mem_of_getElem? ht)
  refine ⟨htask.root, htask.keys p (htodo ▸ List.mem_cons_self), RootTask.call_kind,
    RootTask.call_hash, rfl, rfl, fun hp => ?_⟩
  obtain ⟨b, hb⟩ := Option.isSome_iff_exists.mp ((htask.baseFirst p rest htodo).1 hp)
  rw [RootTask.call_baseId hp, hb] at hbase
  obtain ⟨l, hl, rfl⟩ := hasLayer_eq_true hbase
  exact ⟨l, hl, hb, (htask.base l.id hb).2 l (mem_rows.mpr (Or.inl hl)) rfl⟩

theorem openLayer (h : TopologyInv R sha256 keys st)
    (hact : st.openLayer R sha256 k = some st') : TopologyInv R sha256 keys st' := by
  unfold LayerState.openLayer at hact
  split at hact
  · cases hact
  · next call hcall =>
    obtain ⟨t, p, rest, ht, htodo, rfl⟩ := nextCall_eq_some hcall
    split at hact
    · cases hact
    · next hfree =>
      have hothers : ∀ c ∈ st.creating, c.1 ≠ k ∧ c.2.hash ≠ (t.call R sha256 p).hash := by
        simpa [not_or] using hfree
      have htask := h.tasks t (List.mem_of_getElem? ht)
      split at hact
      · next row hrow =>
        obtain rfl := Option.some.inj hact
        have hmem : row ∈ st.rows := mem_rows.mpr (Or.inl (List.mem_of_find?_eq_some hrow))
        have hhash : row.hash = (t.call R sha256 p).hash := by simpa using List.find?_some hrow
        refine h.modifyTask (fun c hc => (hothers c hc).1) fun t' ht' => ?_
        obtain rfl : t = t' := Option.some.inj (ht.symm.trans ht')
        split
        · refine htask.advance htodo fun hp => ⟨h.fresh row hmem, fun l hl hid => ?_⟩
          rw [h.eq_of_id hl hmem hid, hhash, RootTask.call_hash, LayerKey.hash_of_base hp]
          rfl
        · exact htask.fail
      · next hnone =>
        split at hact
        · next hrefs =>
          obtain rfl := Option.some.inj hact
          rw [Bool.and_eq_true] at hrefs
          refine h.insertRow ht htodo (h.madeBy_insert ht htodo hrefs.2 _ _ _) rfl ?_
            fun c hc => (hothers c hc).1
          intro l hl heq
          rcases mem_rows.mp hl with hl | ⟨c, hc, rfl⟩
          · exact List.find?_eq_none.mp hnone l hl (by simpa using heq)
          · exact (hothers c hc).2 heq
        · obtain rfl := Option.some.inj hact
          refine h.modifyTask (fun c hc => (hothers c hc).1) fun t' ht' => ?_
          exact (h.tasks t' (List.mem_of_getElem? ht')).fail

end TopologyInv

/-- The tasks of a call whose keys are known. -/
theorem taskInv_of_call {c : PartitionedCall} (hvalid : c.Valid R)
    (hkeys : ∀ t ∈ c.tasks, ∀ p ∈ t.todo, t.key R p ∈ keys) {rows : List LayerRow} {next : ℤ} :
    ∀ t ∈ c.tasks, TaskInv R sha256 keys rows next t := by
  intro t ht
  have hk := hkeys t ht
  obtain ⟨r, hr, rfl⟩ := List.mem_map.mp ht
  refine ⟨hvalid.1 r hr, hk, fun p rest heq => ?_, fun b hb => by cases hb⟩
  obtain ⟨rfl, rfl⟩ := List.cons.inj heq
  refine ⟨fun hp => absurd rfl hp, fun hmem => ?_⟩
  rcases List.mem_append.mp hmem with hmem | hmem
  · obtain ⟨_, -, hp⟩ := List.mem_map.mp hmem
    cases hp
  · obtain ⟨_, -, hp⟩ := List.mem_map.mp hmem
    cases hp

/-- The keys of a call speak of ids of 64 bits. -/
theorem fits_of_call {c : PartitionedCall} (hvalid : c.Valid R) :
    ∀ t ∈ c.tasks, ∀ p ∈ t.todo, p.Fits := by
  intro t ht p hp
  obtain ⟨r, hr, rfl⟩ := List.mem_map.mp ht
  rcases List.mem_cons.mp hp with rfl | hp
  · trivial
  · rcases List.mem_append.mp hp with hp | hp
    · obtain ⟨l, hl, rfl⟩ := List.mem_map.mp hp
      rw [Option.mem_toList] at hl
      exact hvalid.2.1 l (EphContext.mem_visibleIds_of_chainOf (List.mem_of_getLast? hl))
    · obtain ⟨l, hl, rfl⟩ := List.mem_map.mp hp
      exact hvalid.2.1 l (hvalid.2.2 r hr l hl)

theorem mem_keysOf {es : List LayerAction} {key : LayerKey} : key ∈ keysOf R es ↔
    ∃ c, LayerAction.call c ∈ es ∧ ∃ t ∈ c.tasks, ∃ p ∈ t.todo, key = t.key R p := by
  unfold keysOf
  rw [List.mem_flatMap]
  constructor
  · rintro ⟨e, he, hkey⟩
    cases e with
    | call c =>
      obtain ⟨t, ht, hkey⟩ := List.mem_flatMap.mp hkey
      obtain ⟨p, hp, rfl⟩ := List.mem_map.mp hkey
      exact ⟨c, he, t, ht, p, hp, rfl⟩
    | openLayer _ | commit _ _ | rollback _ | collect _ | purge => cases hkey
  · rintro ⟨c, hc, t, ht, p, hp, rfl⟩
    exact ⟨_, hc, List.mem_flatMap.mpr ⟨t, ht, List.mem_map_of_mem hp⟩⟩

/-- A valid call adds its tasks. -/
theorem act_call {c : PartitionedCall} : st.act R sha256 (.call c) = some st' ↔
    c.Valid R ∧ { st with tasks := st.tasks ++ c.tasks } = st' := by
  rw [LayerState.act]
  constructor
  · intro h
    split at h
    · next hvalid => exact ⟨hvalid, Option.some.inj h⟩
    · cases h
  · rintro ⟨hvalid, rfl⟩
    rw [if_pos hvalid]

/-- **Every action keeps the invariant.** -/
theorem TopologyInv.act {es : List LayerAction} {a : LayerAction}
    (h : TopologyInv R sha256 (keysOf R es) st) (hact : st.act R sha256 a = some st') :
    TopologyInv R sha256 (keysOf R (es ++ [a])) st' := by
  have hsub : keysOf R es ⊆ keysOf R (es ++ [a]) := by
    intro key hkey
    obtain ⟨c, hc, hrest⟩ := mem_keysOf.mp hkey
    exact mem_keysOf.mpr ⟨c, List.mem_append_left _ hc, hrest⟩
  have hfits : ∀ k ∈ keysOf R (es ++ [a]), k.part.Fits := by
    intro key hkey
    obtain ⟨c, hc, t, ht, p, hp, rfl⟩ := mem_keysOf.mp hkey
    rcases List.mem_append.mp hc with hc | hc
    · exact h.fits _ (mem_keysOf.mpr ⟨c, hc, t, ht, p, hp, rfl⟩)
    · obtain rfl := List.mem_singleton.mp hc
      exact fits_of_call (act_call.mp hact).1 t ht p hp
  have h' := h.mono hsub hfits
  cases a with
  | call c =>
    obtain ⟨hvalid, rfl⟩ := act_call.mp hact
    refine h'.addTasks (taskInv_of_call hvalid fun t ht p hp => ?_)
    exact mem_keysOf.mpr ⟨c, List.mem_append_right _ List.mem_cons_self, t, ht, p, hp, rfl⟩
  | openLayer k => exact h'.openLayer hact
  | commit k truncated => exact h'.commit hact
  | rollback k => exact h'.rollback hact
  | collect dead => exact h'.collect hact
  | purge => exact h'.purge hact

end Invariant

/-! ### Hits -/

section Hits

variable {R : Roots} {sha256 : Bytes → Hash32}

theorem topologyInv_of_trace {es : List LayerAction} {st : LayerState}
    (h : trace (LayerState.act R sha256) (.initial R) es = some st) :
    TopologyInv R sha256 (keysOf R es) st :=
  invariant_of_trace (I := fun es st => TopologyInv R sha256 (keysOf R es) st) .initial
    (fun _ hinv hact => hinv.act hact) h

/-- The rows that no task has inserted have other hashes than any key. -/
theorem NoCollisions.not_initial {keys : List LayerKey} (h : NoCollisions R sha256 keys)
    {key : LayerKey} (hkey : key ∈ keys) {row : LayerRow}
    (hrow : row ∈ (LayerState.initial R).layers) : row.hash ≠ (key.hash sha256).val := by
  intro heq
  rcases List.mem_cons.mp hrow with rfl | hrow
  · have hlen := (key.hash sha256).2
    rw [← heq] at hlen
    exact absurd hlen (by decide)
  · obtain ⟨r, hr, rfl⟩ := List.mem_map.mp hrow
    exact h.root key hkey r hr heq.symm

/-- Roots with one identity hash are one root. -/
theorem Roots.eq_of_hash {r r' : ℤ} (hr : r ∈ R.ids) (hr' : r' ∈ R.ids)
    (h : R.hash r = R.hash r') : r = r' :=
  List.inj_on_of_nodup_map R.hash_nodup hr hr' h

/-- **A layer that is found has the kind and the parent that the caller would have written,
and it has the base exactly when the caller's base still exists.** -/
theorem hit_topology_of_run {es : List LayerAction} {st : LayerState}
    (h : trace (LayerState.act R sha256) (.initial R) es = some st)
    (hsha : NoCollisions R sha256 (keysOf R es)) {k : ℕ} {call : LayerCall} {row : LayerRow}
    (hhit : st.hit R sha256 k = some (call, row)) :
    row.kind = call.kind ∧ row.parentId = call.parentId ∧
      (SameTopology row call ↔ st.hasLayer call.baseId = true) := by
  have hinv := topologyInv_of_trace h
  obtain ⟨call', hcall, hfound⟩ := Option.bind_eq_some_iff.mp hhit
  obtain ⟨row', hrow, heq⟩ := Option.map_eq_some_iff.mp hfound
  obtain ⟨rfl, rfl⟩ := Prod.mk.inj heq
  obtain ⟨t, p, rest, ht, htodo, rfl⟩ := TopologyInv.nextCall_eq_some hcall
  have hmem : row' ∈ st.layers := List.mem_of_find?_eq_some hrow
  have hhash : row'.hash = ((t.key R p).hash sha256).val := by
    rw [← RootTask.call_hash]
    simpa using List.find?_some hrow
  have htask := hinv.tasks t (List.mem_of_getElem? ht)
  have hkey := htask.keys p (htodo ▸ List.mem_cons_self)
  -- the row was inserted for a task with the same key
  obtain ⟨t', p', hmade⟩ : ∃ t' p', MadeBy R sha256 (keysOf R es) st.layers row' t' p' :=
    (hinv.origin row' (mem_rows.mpr (Or.inl hmem))).resolve_left fun horig =>
      hsha.not_initial hkey horig hhash
  have hsame : LayerKey.Same sha256 (t'.key R p') (t.key R p) := by
    refine LayerKey.same_of_input (hinv.fits _ hmade.key) (hinv.fits _ hkey) ?_
    exact hsha.injective _ hmade.key _ hkey (Subtype.ext (hmade.hash.symm.trans hhash))
  obtain rfl : p' = p := hsame.part
  have hkind : row'.kind = (t.call R sha256 p').kind := by
    rw [hmade.kind, RootTask.call_kind]
  have hparent : row'.parentId = (t.call R sha256 p').parentId := by
    rw [hmade.parentId]
    cases p' with
    | base =>
      have hroot : t'.rootId = t.rootId :=
        Roots.eq_of_hash hmade.root htask.root (hsame.rootHash rfl)
      exact congrArg some hroot
    | supplement _ | perLayer _ => rfl
  refine ⟨hkind, hparent, ?_⟩
  by_cases hp : p' = .base
  · subst hp
    refine ⟨fun _ => rfl, fun _ => ⟨hkind, hparent, hmade.baseId⟩⟩
  · -- both bases have the key that the layer's own key was derived from
    obtain ⟨b, hb, hbase', hbhash⟩ := hmade.base hp
    obtain ⟨own, hown⟩ := Option.isSome_iff_exists.mp ((htask.baseFirst p' rest htodo).1 hp)
    have hrowBase : row'.baseId = some b.id := by
      rw [hmade.baseId, RootTask.call_baseId hp, hbase']
    rw [RootTask.call_baseId hp, hown]
    constructor
    · intro htop
      have hid := htop.baseId
      rw [hrowBase, RootTask.call_baseId hp, hown] at hid
      exact List.any_eq_true.mpr ⟨b, hb, by simpa using hid⟩
    · intro halive
      obtain ⟨l, hl, rfl⟩ := TopologyInv.hasLayer_eq_true halive
      have hlhash := (htask.base l.id hown).2 l (mem_rows.mpr (Or.inl hl)) rfl
      have hbl : b.hash = l.hash := by
        rw [hbhash, hlhash]
        exact congrArg Subtype.val hsame.salted
      have heq := hinv.eq_of_hash (mem_rows.mpr (Or.inl hb)) (mem_rows.mpr (Or.inl hl)) hbl
      refine ⟨hkind, hparent, ?_⟩
      rw [hrowBase, heq, RootTask.call_baseId hp, hown]

end Hits

/-! ### Collections of the store -/

/-- The edge from a layer to its parent or base. -/
theorem LayeredStore.mem_layerEdges {db : LayeredStore} {a b : ℤ} : (a, b) ∈ db.layerEdges ↔
    ∃ l ∈ db.layers, l.id = a ∧ (l.parentId = some b ∨ l.baseId = some b) := by
  unfold layerEdges
  simp only [List.mem_append, List.mem_flatMap, List.mem_map, Option.mem_toList, Prod.mk.injEq]
  constructor
  · rintro (⟨l, hl, p, hp, rfl, rfl⟩ | ⟨l, hl, p, hp, rfl, rfl⟩)
    · exact ⟨l, hl, rfl, Or.inl hp⟩
    · exact ⟨l, hl, rfl, Or.inr hp⟩
  · rintro ⟨l, hl, rfl, hp | hb⟩
    · exact Or.inl ⟨l, hl, b, hp, rfl, rfl⟩
    · exact Or.inr ⟨l, hl, b, hb, rfl, rfl⟩

/-- A protected row has neither a parent nor a base. -/
theorem TopologyInv.protected_row {R : Roots} {sha256 : Bytes → Hash32} {keys : List LayerKey}
    {st : LayerState} (h : TopologyInv R sha256 keys st) {l : LayerRow} (hl : l ∈ st.layers)
    (hprot : l.kind.isProtected = true) : l.parentId = none ∧ l.baseId = none := by
  rcases h.origin l (mem_rows.mpr (Or.inl hl)) with horig | ⟨t, p, hmade⟩
  · rcases List.mem_cons.mp horig with rfl | horig
    · exact ⟨rfl, rfl⟩
    · obtain ⟨r, -, rfl⟩ := List.mem_map.mp horig
      exact ⟨rfl, rfl⟩
  · rw [hmade.kind] at hprot
    cases hprot

/-- **A deletion of the store with its cascades is a collection**, once the transactions on
what it takes have ended. -/
theorem act_collect {R : Roots} {sha256 : Bytes → Hash32} {es : List LayerAction}
    {st : LayerState} (h : trace (LayerState.act R sha256) (.initial R) es = some st)
    {db db' : LayeredStore} {seed : ℤ → Bool} (hlayers : db.layers = st.layers)
    (hok : db.deleteDoomedClosure seed = .ok db')
    (hwait : ∀ c ∈ st.creating, (∀ p ∈ c.2.parentId, p ∉ db.cascaded seed) ∧
      ∀ b ∈ c.2.baseId, b ∉ db.cascaded seed) :
    st.act R sha256 (.collect (db.cascaded seed)) = some { st with layers := db'.layers } := by
  have hinv := topologyInv_of_trace h
  obtain ⟨hroots, rfl⟩ := LayeredStore.deleteDoomedClosure_eq_ok hok
  have hdead : st.Collectable (db.cascaded seed) := by
    refine ⟨fun l hl hmem => ?_, fun l hl href => ?_, hwait⟩
    · by_contra hkind
      rw [Bool.not_eq_false] at hkind
      obtain ⟨hparent, hbase⟩ := hinv.protected_row hl hkind
      obtain ⟨d, hd, -, hld⟩ := LayeredStore.mem_cascaded.mp hmem
      -- no edge leads out of a protected layer
      rcases Relation.ReflTransGen.cases_head hld with rfl | ⟨c, hedge, -⟩
      · exact hd.not_protected ⟨l, hlayers ▸ hl, rfl, hkind⟩
      · obtain ⟨l', hl', hid, hneeds⟩ := LayeredStore.mem_layerEdges.mp hedge
        have heq : l' = l := eq_of_key db.layers_nodup hl' (hlayers ▸ hl) hid
        rw [heq, hparent, hbase] at hneeds
        rcases hneeds with hneeds | hneeds <;> cases hneeds
    · rcases href with ⟨p, hp, hpdead⟩ | ⟨b, hb, hbdead⟩
      · have hedge := LayeredStore.mem_layerEdges.mpr ⟨l, hlayers ▸ hl, rfl, Or.inl hp⟩
        exact Reachability.closure_closed hedge hpdead
      · have hedge := LayeredStore.mem_layerEdges.mpr ⟨l, hlayers ▸ hl, rfl, Or.inr hb⟩
        exact Reachability.closure_closed hedge hbdead
  show st.collect _ = _
  rw [LayerState.collect, if_pos hdead, ← hlayers]
  rfl

/-! ### A base that is deleted and made again -/

/-- The root of one project. -/
def oneRoot : Roots where
  ids := [1]
  hash := fun _ => List.replicate 32 7
  ids_pos := by decide
  ids_nodup := by decide
  hash_nodup := by decide
  hash_ne_canary := by decide

/-- A call for that root, after the layers of a chain. -/
def chainCall (chain : List ℤ) (verb : UInt8) : PartitionedCall where
  eph := ⟨[⟨1, 1⟩], [chain], rfl, by simp⟩
  baseHash := .fill verb
  supplementExtra := []
  perLayer := none

/-- One statement makes a layer; a second one, after it, makes its base and supplement, and
the third finds them. -/
def sharedLayers : List LayerAction :=
  [.call (chainCall [] 1), .openLayer 0, .commit 0 false,
    .call (chainCall [-1000000] 2), .openLayer 1, .commit 1 false, .openLayer 1, .commit 1 false,
    .call (chainCall [-1000000] 2), .openLayer 2]

/-- The supplement that the third statement finds is the one it would have made. -/
theorem sameTopology_of_sharedLayers : ∃ st call row,
    trace (LayerState.act oneRoot polynomialHash) (.initial oneRoot) sharedLayers = some st ∧
      st.hit oneRoot polynomialHash 2 = some (call, row) ∧ row.baseId = some (-1000001) ∧
        SameTopology row call := by
  have hrun : (trace (LayerState.act oneRoot polynomialHash) (.initial oneRoot)
      sharedLayers).bind (fun st => (st.hit oneRoot polynomialHash 2).map fun h =>
        (h.2.baseId, st.hasLayer h.1.baseId)) = some (some (-1000001), true) := by
    decide +kernel
  obtain ⟨st, hst, hmap⟩ := Option.bind_eq_some_iff.mp hrun
  obtain ⟨⟨call, row⟩, hhit, heq⟩ := Option.map_eq_some_iff.mp hmap
  obtain ⟨hrow, hbase⟩ := Prod.mk.inj heq
  have hsha : NoCollisions oneRoot polynomialHash (keysOf oneRoot sharedLayers) :=
    ⟨by decide +kernel, by decide +kernel⟩
  exact ⟨st, call, row, hst, hhit, hrow, (hit_topology_of_run hst hsha hhit).2.2.mpr hbase⟩

/-- Between the base and the supplement of the second statement its base is deleted, and the
third makes both. -/
def recreatedBase : List LayerAction :=
  [.call (chainCall [] 1), .openLayer 0, .commit 0 false,
    .call (chainCall [-1000000] 2), .openLayer 1, .commit 1 false, .collect [-1000001],
    .call (chainCall [-1000000] 2), .openLayer 2, .commit 2 false, .openLayer 2, .commit 2 false]

/-- The second statement finds a supplement of the new base. -/
theorem not_sameTopology_of_recreatedBase :
    ¬ ∀ (R : Roots) (sha256 : Bytes → Hash32) (es : List LayerAction) (st : LayerState),
      trace (LayerState.act R sha256) (.initial R) es = some st →
        NoCollisions R sha256 (keysOf R es) → ∀ k call row,
          st.hit R sha256 k = some (call, row) → SameTopology row call := by
  intro h
  have hrun : (trace (LayerState.act oneRoot polynomialHash) (.initial oneRoot)
      recreatedBase).bind (fun st => (st.hit oneRoot polynomialHash 1).map fun h =>
        (h.1.baseId, h.2.baseId)) = some (some (-1000001), some (-1000002)) := by
    decide +kernel
  obtain ⟨st, hst, hmap⟩ := Option.bind_eq_some_iff.mp hrun
  obtain ⟨⟨call, row⟩, hhit, heq⟩ := Option.map_eq_some_iff.mp hmap
  obtain ⟨hcall, hrow⟩ := Prod.mk.inj heq
  have hsha : NoCollisions oneRoot polynomialHash (keysOf oneRoot recreatedBase) :=
    ⟨by decide +kernel, by decide +kernel⟩
  have hbase := (h oneRoot polynomialHash recreatedBase st hst hsha 1 call row hhit).baseId
  rw [hcall, hrow] at hbase
  exact absurd hbase (by decide)

end Askl
