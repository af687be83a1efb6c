import Askl.Index.Rows
import Askl.Library.Fallible
import Askl.Library.Keyed
import Askl.Library.Reachability
import Askl.Store.Tables

/-!
# The collection of ephemeral layers

Deleting a layer deletes its rows, the rows of other layers that refer to its symbols and
objects, and the layers that have it as their parent or base.  The collection therefore
deletes whole layers: those it was asked for, and all that depend on them through four
edges.  Two of the edges follow the references to symbols; none follows those to objects.

## Main definitions

* `LayeredStore` — the layers, their rows and the constraints of the schema.
* `LayeredStore.doomedEdges`, `LayeredStore.doomed` — the recursive query.
* `LayeredStore.deleteDoomedClosure` — the deletion, with its cascades.
* `SameRowsOnSurvivors` — no layer is hollow, and no protected layer is gone.
* `LayeredStore.Refers`, `LayeredStore.Refused` — what the exact condition speaks of.

## Main results

* `mem_cascaded` — what a deletion takes with it.
* `collects_whole_layers_iff` — **no collection leaves a hollow layer exactly when every
  layer that refers to another depends on it through the four edges.**
-/

namespace Askl

open Reachability Keyed

/-! ### The tables -/

/-- Whether the id of a row and that of its layer agree in sign. -/
def SignCheck (id layer : ℤ) : Prop := 0 < id ↔ 0 < layer

instance (id layer : ℤ) : Decidable (SignCheck id layer) :=
  inferInstanceAs (Decidable (_ ↔ _))

/-- The tables of a database with layers, and the constraints of the schema. -/
structure LayeredStore where
  rows : Database
  layers : List LayerRow
  layers_nodup : (layers.map (·.id)).Nodup
  parent_fkey : ∀ l ∈ layers, ∀ p ∈ l.parentId, p ∈ layers.map (·.id)
  base_fkey : ∀ l ∈ layers, ∀ b ∈ l.baseId, b ∈ layers.map (·.id)
  symbols_layer_fkey : ∀ s ∈ rows.symbols, s.layer ∈ layers.map (·.id)
  objects_layer_fkey : ∀ o ∈ rows.objects, o.layer ∈ layers.map (·.id)
  instances_layer_fkey : ∀ i ∈ rows.symbolInstances, i.layer ∈ layers.map (·.id)
  refs_layer_fkey : ∀ r ∈ rows.symbolRefs, r.layer ∈ layers.map (·.id)
  instances_symbol_fkey : ∀ i ∈ rows.symbolInstances, i.symbol ∈ rows.symbols.map (·.id)
  instances_object_fkey : ∀ i ∈ rows.symbolInstances, i.objectId ∈ rows.objects.map (·.id)
  refs_symbol_fkey : ∀ r ∈ rows.symbolRefs, r.toSymbol ∈ rows.symbols.map (·.id)
  refs_object_fkey : ∀ r ∈ rows.symbolRefs, r.fromObject ∈ rows.objects.map (·.id)
  projects_root_fkey : ∀ p ∈ rows.projects, p.rootLayerId ∈ layers.map (·.id)
  symbols_sign : ∀ s ∈ rows.symbols, SignCheck s.id s.layer
  objects_sign : ∀ o ∈ rows.objects, SignCheck o.id o.layer
  instances_sign : ∀ i ∈ rows.symbolInstances, SignCheck i.id i.layer
  refs_sign : ∀ r ∈ rows.symbolRefs, SignCheck r.id r.layer

namespace LayeredStore

variable (db : LayeredStore)

/-! ### The recursive query -/

/-- The layers with a parent or a base, with that layer. -/
def layerEdges : List (ℤ × ℤ) :=
  (db.layers.flatMap fun l => l.parentId.toList.map fun p => (l.id, p)) ++
    db.layers.flatMap fun l => l.baseId.toList.map fun b => (l.id, b)

/-- The layers of the references to a symbol, when both are ephemeral and differ. -/
def symbolEdge (layer needed : ℤ) : List (ℤ × ℤ) :=
  if layer < 0 ∧ needed < 0 ∧ layer ≠ needed then [(layer, needed)] else []

/-- The four edges of the recursive query, from a dependent to the layer it needs. -/
def doomedEdges : List (ℤ × ℤ) :=
  ((join db.rows.symbolInstances db.rows.symbols fun i s => i.symbol == s.id).flatMap
      fun p => symbolEdge p.1.layer p.2.layer) ++
    ((join db.rows.symbolRefs db.rows.symbols fun r s => r.toSymbol == s.id).flatMap
      fun p => symbolEdge p.1.layer p.2.layer) ++
    db.layerEdges

/-- The layers the query finds: the unprotected ones among the seeds, and all that depend
on them. -/
def doomed (seed : ℤ → Bool) : List ℤ :=
  closure db.doomedEdges
    ((db.layers.filter fun l => seed l.id && !l.kind.isProtected).map (·.id))

/-- The layers the statement deletes. -/
def deleted (seed : ℤ → Bool) : List ℤ :=
  (db.layers.filter fun l => decide (l.id ∈ db.doomed seed) && !l.kind.isProtected).map (·.id)

/-- The layers that are gone after the cascades to those with a deleted parent or base. -/
def cascaded (seed : ℤ → Bool) : List ℤ := closure db.layerEdges (db.deleted seed)

/-! ### The deletion -/

/-- The data rows after the layers of a list are gone, and with them their rows and the rows
that refer to these. -/
def dropRows (dead : List ℤ) : Database :=
  let symbols := db.rows.symbols.filter fun s => s.layer ∉ dead
  let objects := db.rows.objects.filter fun o => o.layer ∉ dead
  { db.rows with
    symbols := symbols
    objects := objects
    symbolInstances := db.rows.symbolInstances.filter fun i =>
      i.layer ∉ dead ∧ i.symbol ∈ symbols.map (·.id) ∧ i.objectId ∈ objects.map (·.id)
    symbolRefs := db.rows.symbolRefs.filter fun r =>
      r.layer ∉ dead ∧ r.toSymbol ∈ symbols.map (·.id) ∧ r.fromObject ∈ objects.map (·.id)
    symbols_nodup := (List.filter_sublist.map _).nodup db.rows.symbols_nodup
    objects_nodup := (List.filter_sublist.map _).nodup db.rows.objects_nodup
    symbolInstances_nodup := (List.filter_sublist.map _).nodup db.rows.symbolInstances_nodup
    symbolRefs_nodup := (List.filter_sublist.map _).nodup db.rows.symbolRefs_nodup }

/-- The layers that are left. -/
def keepLayers (dead : List ℤ) : List LayerRow := db.layers.filter fun l => l.id ∉ dead

theorem mem_keepLayers {dead : List ℤ} {a : ℤ} :
    a ∈ (db.keepLayers dead).map (·.id) ↔ a ∈ db.layers.map (·.id) ∧ a ∉ dead := by
  unfold keepLayers
  simp only [List.mem_map, List.mem_filter, decide_eq_true_eq]
  constructor
  · rintro ⟨l, ⟨hl, hdead⟩, rfl⟩
    exact ⟨⟨l, hl, rfl⟩, hdead⟩
  · rintro ⟨⟨l, hl, rfl⟩, hdead⟩
    exact ⟨l, ⟨hl, hdead⟩, rfl⟩

/-- The tables without the layers of a list that is closed under the cascades. -/
def dropLayers (dead : List ℤ) (hclosed : ∀ a b, (a, b) ∈ db.layerEdges → b ∈ dead → a ∈ dead)
    (hroots : ∀ p ∈ db.rows.projects, p.rootLayerId ∉ dead) : LayeredStore where
  rows := db.dropRows dead
  layers := db.keepLayers dead
  layers_nodup := (List.filter_sublist.map _).nodup db.layers_nodup
  parent_fkey l hl p hp := by
    rw [keepLayers, List.mem_filter] at hl
    refine db.mem_keepLayers.mpr ⟨db.parent_fkey l hl.1 p hp, fun hdead => ?_⟩
    have hedge : (l.id, p) ∈ db.layerEdges := by
      refine List.mem_append_left _ (List.mem_flatMap.mpr ⟨l, hl.1, ?_⟩)
      exact List.mem_map.mpr ⟨p, Option.mem_toList.mpr hp, rfl⟩
    exact absurd (hclosed _ _ hedge hdead) (by simpa using hl.2)
  base_fkey l hl b hb := by
    rw [keepLayers, List.mem_filter] at hl
    refine db.mem_keepLayers.mpr ⟨db.base_fkey l hl.1 b hb, fun hdead => ?_⟩
    have hedge : (l.id, b) ∈ db.layerEdges := by
      refine List.mem_append_right _ (List.mem_flatMap.mpr ⟨l, hl.1, ?_⟩)
      exact List.mem_map.mpr ⟨b, Option.mem_toList.mpr hb, rfl⟩
    exact absurd (hclosed _ _ hedge hdead) (by simpa using hl.2)
  symbols_layer_fkey s hs := by
    have hs' := List.mem_filter.mp hs
    exact db.mem_keepLayers.mpr ⟨db.symbols_layer_fkey s hs'.1, by simpa using hs'.2⟩
  objects_layer_fkey o ho := by
    have ho' := List.mem_filter.mp ho
    exact db.mem_keepLayers.mpr ⟨db.objects_layer_fkey o ho'.1, by simpa using ho'.2⟩
  instances_layer_fkey i hi := by
    obtain ⟨hi, hkeep⟩ := List.mem_filter.mp hi
    exact db.mem_keepLayers.mpr ⟨db.instances_layer_fkey i hi, (of_decide_eq_true hkeep).1⟩
  refs_layer_fkey r hr := by
    obtain ⟨hr, hkeep⟩ := List.mem_filter.mp hr
    exact db.mem_keepLayers.mpr ⟨db.refs_layer_fkey r hr, (of_decide_eq_true hkeep).1⟩
  instances_symbol_fkey i hi := (of_decide_eq_true (List.mem_filter.mp hi).2).2.1
  instances_object_fkey i hi := (of_decide_eq_true (List.mem_filter.mp hi).2).2.2
  refs_symbol_fkey r hr := (of_decide_eq_true (List.mem_filter.mp hr).2).2.1
  refs_object_fkey r hr := (of_decide_eq_true (List.mem_filter.mp hr).2).2.2
  projects_root_fkey p hp := db.mem_keepLayers.mpr ⟨db.projects_root_fkey p hp, hroots p hp⟩
  symbols_sign s hs := db.symbols_sign s (List.mem_filter.mp hs).1
  objects_sign o ho := db.objects_sign o (List.mem_filter.mp ho).1
  instances_sign i hi := db.instances_sign i (List.mem_filter.mp hi).1
  refs_sign r hr := db.refs_sign r (List.mem_filter.mp hr).1

/-- `doomed_closure_delete_sql`, run: a project's root cannot be deleted, and the statement
fails if a cascade reaches one. -/
def deleteDoomedClosure (seed : ℤ → Bool) : Except StorageError LayeredStore :=
  if h : ∃ p ∈ db.rows.projects, p.rootLayerId ∈ db.cascaded seed then .error .foreignKey
  else .ok (db.dropLayers (db.cascaded seed) (fun _ _ hedge hb => closure_closed hedge hb)
    fun p hp hdead => h ⟨p, hp, hdead⟩)

/-- `purge_old_eph_layers`, with the layers last used before the given time. -/
def purgeOldEphLayers (old : ℤ → Bool) : Except StorageError LayeredStore :=
  db.deleteDoomedClosure old

/-- `delete_eph_layer`. -/
def deleteEphLayer (layerId : ℤ) : Except StorageError LayeredStore :=
  db.deleteDoomedClosure fun id => id == layerId

/-! ### What a deletion leaves -/

/-- A layer that garbage collection may delete. -/
def Collectable (a : ℤ) : Prop := ∃ l ∈ db.layers, l.id = a ∧ l.kind.isProtected = false

/-- A layer of the table that garbage collection never touches. -/
def Protected (a : ℤ) : Prop := ∃ l ∈ db.layers, l.id = a ∧ l.kind.isProtected = true

/-- An instance or reference on the first layer is to a symbol, or in an object, of the
second. -/
def Refers (a b : ℤ) : Prop :=
  (∃ i ∈ db.rows.symbolInstances, i.layer = a ∧
    ((∃ s ∈ db.rows.symbols, s.id = i.symbol ∧ s.layer = b) ∨
      ∃ o ∈ db.rows.objects, o.id = i.objectId ∧ o.layer = b)) ∨
  ∃ r ∈ db.rows.symbolRefs, r.layer = a ∧
    ((∃ s ∈ db.rows.symbols, s.id = r.toSymbol ∧ s.layer = b) ∨
      ∃ o ∈ db.rows.objects, o.id = r.fromObject ∧ o.layer = b)

/-- A project's root hangs, by parents and bases, on an ephemeral layer that depends on the
given one: the server refuses to delete it. -/
def Refused (b : ℤ) : Prop :=
  ∃ p ∈ db.rows.projects, ∃ x, db.Collectable x ∧
    DependsOn db.layerEdges p.rootLayerId x ∧ DependsOn db.doomedEdges x b

end LayeredStore

/-- Each layer that is left has the rows it had, and no protected layer is gone. -/
structure SameRowsOnSurvivors (db db' : LayeredStore) : Prop where
  symbols : ∀ l ∈ db'.layers, db'.rows.symbols.filter (·.layer == l.id) =
    db.rows.symbols.filter (·.layer == l.id)
  objects : ∀ l ∈ db'.layers, db'.rows.objects.filter (·.layer == l.id) =
    db.rows.objects.filter (·.layer == l.id)
  symbolInstances : ∀ l ∈ db'.layers, db'.rows.symbolInstances.filter (·.layer == l.id) =
    db.rows.symbolInstances.filter (·.layer == l.id)
  symbolRefs : ∀ l ∈ db'.layers, db'.rows.symbolRefs.filter (·.layer == l.id) =
    db.rows.symbolRefs.filter (·.layer == l.id)
  protected_kept : ∀ l ∈ db.layers, l.kind.isProtected = true → l ∈ db'.layers

/-- A table keeps the rows with a property exactly when a filter spares each of them. -/
theorem filter_filter_eq_iff {α : Type*} {rows : List α} {p q : α → Bool} :
    (rows.filter p).filter q = rows.filter q ↔ ∀ a ∈ rows, q a = true → p a = true := by
  constructor
  · intro h a ha hq
    have hmem : a ∈ rows.filter q := List.mem_filter.mpr ⟨ha, hq⟩
    rw [← h, List.mem_filter, List.mem_filter] at hmem
    exact hmem.1.2
  · intro h
    rw [List.filter_filter]
    refine List.filter_congr fun a ha => ?_
    cases hq : q a with
    | false => rfl
    | true => rw [h a ha hq]; rfl

/-- An id is left in a keyed table exactly when the row it names is. -/
theorem mem_ids_filter_iff {α : Type*} {rows : List α} {key layer : α → ℤ} {dead : List ℤ}
    {id : ℤ} (hnd : (rows.map key).Nodup) (hid : id ∈ rows.map key) :
    id ∈ (rows.filter fun a => layer a ∉ dead).map key ↔
      ∀ a ∈ rows, key a = id → layer a ∉ dead := by
  constructor
  · intro h a ha hkey
    obtain ⟨a', ha', hkey'⟩ := List.mem_map.mp h
    obtain ⟨ha', hlayer⟩ := List.mem_filter.mp ha'
    have heq : a = a' := eq_of_key hnd ha ha' (hkey.trans hkey'.symm)
    rw [heq]
    exact of_decide_eq_true hlayer
  · intro h
    obtain ⟨a, ha, hkey⟩ := List.mem_map.mp hid
    have hkept := h a ha hkey
    exact List.mem_map.mpr ⟨a, List.mem_filter.mpr ⟨ha, by simpa using hkept⟩, hkey⟩

namespace LayeredStore

variable {db : LayeredStore}

/-- The instances of a layer are all left exactly when their symbols and objects are. -/
theorem instances_kept_iff {dead : List ℤ} {a : ℤ} (ha : a ∉ dead) :
    (db.dropRows dead).symbolInstances.filter (·.layer == a) =
        db.rows.symbolInstances.filter (·.layer == a) ↔
      ∀ i ∈ db.rows.symbolInstances, i.layer = a →
        (∀ s ∈ db.rows.symbols, s.id = i.symbol → s.layer ∉ dead) ∧
          ∀ o ∈ db.rows.objects, o.id = i.objectId → o.layer ∉ dead := by
  rw [dropRows, filter_filter_eq_iff]
  refine forall₂_congr fun i hi => ?_
  rw [beq_iff_eq]
  refine imp_congr_right fun hlayer => ?_
  rw [decide_eq_true_eq,
    mem_ids_filter_iff db.rows.symbols_nodup (db.instances_symbol_fkey i hi),
    mem_ids_filter_iff db.rows.objects_nodup (db.instances_object_fkey i hi), hlayer]
  exact and_iff_right ha

/-- The references of a layer are all left exactly when their symbols and objects are. -/
theorem refs_kept_iff {dead : List ℤ} {a : ℤ} (ha : a ∉ dead) :
    (db.dropRows dead).symbolRefs.filter (·.layer == a) =
        db.rows.symbolRefs.filter (·.layer == a) ↔
      ∀ r ∈ db.rows.symbolRefs, r.layer = a →
        (∀ s ∈ db.rows.symbols, s.id = r.toSymbol → s.layer ∉ dead) ∧
          ∀ o ∈ db.rows.objects, o.id = r.fromObject → o.layer ∉ dead := by
  rw [dropRows, filter_filter_eq_iff]
  refine forall₂_congr fun r hr => ?_
  rw [beq_iff_eq]
  refine imp_congr_right fun hlayer => ?_
  rw [decide_eq_true_eq,
    mem_ids_filter_iff db.rows.symbols_nodup (db.refs_symbol_fkey r hr),
    mem_ids_filter_iff db.rows.objects_nodup (db.refs_object_fkey r hr), hlayer]
  exact and_iff_right ha

/-- A layer that refers to another is one of the table. -/
theorem Refers.mem_layers {a b : ℤ} (h : db.Refers a b) : a ∈ db.layers.map (·.id) := by
  rcases h with ⟨i, hi, rfl, -⟩ | ⟨r, hr, rfl, -⟩
  · exact db.instances_layer_fkey i hi
  · exact db.refs_layer_fkey r hr

/-- The layer that is referred to is one of the table. -/
theorem Refers.mem_layers_right {a b : ℤ} (h : db.Refers a b) : b ∈ db.layers.map (·.id) := by
  rcases h with ⟨_, _, _, ⟨s, hs, _, rfl⟩ | ⟨o, ho, _, rfl⟩⟩ |
    ⟨_, _, _, ⟨s, hs, _, rfl⟩ | ⟨o, ho, _, rfl⟩⟩
  · exact db.symbols_layer_fkey s hs
  · exact db.objects_layer_fkey o ho
  · exact db.symbols_layer_fkey s hs
  · exact db.objects_layer_fkey o ho

/-- **Which deletions leave no hollow layer**: those that spare the protected layers, and
take whatever refers to what they take. -/
theorem sameRows_dropLayers_iff {dead : List ℤ}
    (hclosed : ∀ a b, (a, b) ∈ db.layerEdges → b ∈ dead → a ∈ dead)
    (hroots : ∀ p ∈ db.rows.projects, p.rootLayerId ∉ dead) :
    SameRowsOnSurvivors db (db.dropLayers dead hclosed hroots) ↔
      (∀ a, db.Protected a → a ∉ dead) ∧ ∀ a b, db.Refers a b → b ∈ dead → a ∈ dead := by
  constructor
  · intro h
    constructor
    · rintro a ⟨l, hl, rfl, hprot⟩
      have hkept := h.protected_kept l hl hprot
      exact of_decide_eq_true (List.mem_filter.mp hkept).2
    · intro a b href hb
      by_contra ha
      obtain ⟨l, hl, rfl⟩ := List.mem_map.mp href.mem_layers
      have hl' : l ∈ db.keepLayers dead := List.mem_filter.mpr ⟨hl, by simpa using ha⟩
      rcases href with ⟨i, hi, hlayer, hneeds⟩ | ⟨r, hr, hlayer, hneeds⟩
      · have hkept := (instances_kept_iff ha).mp (h.symbolInstances l hl') i hi hlayer
        rcases hneeds with ⟨s, hs, hid, rfl⟩ | ⟨o, ho, hid, rfl⟩
        · exact hkept.1 s hs hid hb
        · exact hkept.2 o ho hid hb
      · have hkept := (refs_kept_iff ha).mp (h.symbolRefs l hl') r hr hlayer
        rcases hneeds with ⟨s, hs, hid, rfl⟩ | ⟨o, ho, hid, rfl⟩
        · exact hkept.1 s hs hid hb
        · exact hkept.2 o ho hid hb
  · rintro ⟨hprot, hrefs⟩
    have halive : ∀ l ∈ db.keepLayers dead, l.id ∉ dead := fun l hl =>
      of_decide_eq_true (List.mem_filter.mp hl).2
    constructor
    · intro l hl
      refine filter_filter_eq_iff.mpr fun s _ hs => ?_
      rw [beq_iff_eq] at hs
      rw [hs]
      exact decide_eq_true (halive l hl)
    · intro l hl
      refine filter_filter_eq_iff.mpr fun o _ ho => ?_
      rw [beq_iff_eq] at ho
      rw [ho]
      exact decide_eq_true (halive l hl)
    · intro l hl
      refine (instances_kept_iff (halive l hl)).mpr fun i hi hlayer => ⟨?_, ?_⟩
      · intro s hs hid hdead
        exact halive l hl (hrefs _ _ (Or.inl ⟨i, hi, hlayer, Or.inl ⟨s, hs, hid, rfl⟩⟩) hdead)
      · intro o ho hid hdead
        exact halive l hl (hrefs _ _ (Or.inl ⟨i, hi, hlayer, Or.inr ⟨o, ho, hid, rfl⟩⟩) hdead)
    · intro l hl
      refine (refs_kept_iff (halive l hl)).mpr fun r hr hlayer => ⟨?_, ?_⟩
      · intro s hs hid hdead
        exact halive l hl (hrefs _ _ (Or.inr ⟨r, hr, hlayer, Or.inl ⟨s, hs, hid, rfl⟩⟩) hdead)
      · intro o ho hid hdead
        exact halive l hl (hrefs _ _ (Or.inr ⟨r, hr, hlayer, Or.inr ⟨o, ho, hid, rfl⟩⟩) hdead)
    · intro l hl hkind
      exact List.mem_filter.mpr ⟨hl, decide_eq_true (hprot _ ⟨l, hl, rfl, hkind⟩)⟩

/-! ### What a deletion takes -/

theorem collectable_or_protected {a : ℤ} (ha : a ∈ db.layers.map (·.id)) :
    db.Collectable a ∨ db.Protected a := by
  obtain ⟨l, hl, rfl⟩ := List.mem_map.mp ha
  cases hkind : l.kind.isProtected with
  | false => exact Or.inl ⟨l, hl, rfl, hkind⟩
  | true => exact Or.inr ⟨l, hl, rfl, hkind⟩

theorem Collectable.mem_layers {a : ℤ} (h : db.Collectable a) : a ∈ db.layers.map (·.id) := by
  obtain ⟨l, hl, rfl, -⟩ := h
  exact List.mem_map_of_mem hl

theorem mem_doomed {seed : ℤ → Bool} {a : ℤ} :
    a ∈ db.doomed seed ↔
      ∃ b, db.Collectable b ∧ seed b = true ∧ DependsOn db.doomedEdges a b := by
  rw [doomed, mem_closure]
  constructor
  · rintro ⟨b, hb, hab⟩
    obtain ⟨l, hl, rfl⟩ := List.mem_map.mp hb
    rw [List.mem_filter, Bool.and_eq_true, Bool.not_eq_true'] at hl
    exact ⟨l.id, ⟨l, hl.1, rfl, hl.2.2⟩, hl.2.1, hab⟩
  · rintro ⟨b, ⟨l, hl, rfl, hkind⟩, hseed, hab⟩
    refine ⟨l.id, List.mem_map_of_mem (List.mem_filter.mpr ⟨hl, ?_⟩), hab⟩
    rw [hseed, hkind]
    rfl

theorem mem_deleted {seed : ℤ → Bool} {a : ℤ} :
    a ∈ db.deleted seed ↔ db.Collectable a ∧ a ∈ db.doomed seed := by
  unfold deleted
  rw [List.mem_map]
  constructor
  · rintro ⟨l, hl, rfl⟩
    rw [List.mem_filter, Bool.and_eq_true, Bool.not_eq_true', decide_eq_true_eq] at hl
    exact ⟨⟨l, hl.1, rfl, hl.2.2⟩, hl.2.1⟩
  · rintro ⟨⟨l, hl, rfl, hkind⟩, hdoomed⟩
    refine ⟨l, List.mem_filter.mpr ⟨hl, ?_⟩, rfl⟩
    rw [decide_eq_true hdoomed, hkind]
    rfl

/-- **What a deletion takes with it.** -/
theorem mem_cascaded {seed : ℤ → Bool} {a : ℤ} :
    a ∈ db.cascaded seed ↔
      ∃ d, db.Collectable d ∧ d ∈ db.doomed seed ∧ DependsOn db.layerEdges a d := by
  rw [cascaded, mem_closure]
  constructor
  · rintro ⟨d, hd, had⟩
    rw [mem_deleted] at hd
    exact ⟨d, hd.1, hd.2, had⟩
  · rintro ⟨d, hd, hdoomed, had⟩
    exact ⟨d, mem_deleted.mpr ⟨hd, hdoomed⟩, had⟩

theorem layerEdges_subset : db.layerEdges ⊆ db.doomedEdges :=
  List.subset_append_right _ _

/-- What depends on a layer the query finds, the query finds. -/
theorem doomed_of_dependsOn {seed : ℤ → Bool} {a b : ℤ} (hab : DependsOn db.doomedEdges a b)
    (hb : b ∈ db.doomed seed) : a ∈ db.doomed seed := by
  obtain ⟨c, hc, hseed, hbc⟩ := mem_doomed.mp hb
  exact mem_doomed.mpr ⟨c, hc, hseed, hab.trans hbc⟩

/-- The cascades take no layer that the query has not found. -/
theorem doomed_of_cascaded {seed : ℤ → Bool} {a : ℤ} (ha : a ∈ db.cascaded seed) :
    a ∈ db.doomed seed := by
  obtain ⟨d, -, hdoomed, had⟩ := mem_cascaded.mp ha
  exact doomed_of_dependsOn (had.mono layerEdges_subset) hdoomed

theorem cascaded_of_doomed {seed : ℤ → Bool} {a : ℤ} (ha : db.Collectable a)
    (hdoomed : a ∈ db.doomed seed) : a ∈ db.cascaded seed :=
  mem_cascaded.mpr ⟨a, ha, hdoomed, Relation.ReflTransGen.refl⟩

theorem deleteDoomedClosure_eq_ok {seed : ℤ → Bool} {db' : LayeredStore}
    (h : db.deleteDoomedClosure seed = .ok db') :
    ∃ hroots : ∀ p ∈ db.rows.projects, p.rootLayerId ∉ db.cascaded seed,
      db' = db.dropLayers (db.cascaded seed) (fun _ _ hedge hb => closure_closed hedge hb)
        hroots := by
  unfold deleteDoomedClosure at h
  split at h
  · cases h
  · next hroots =>
    refine ⟨fun p hp hdead => hroots ⟨p, hp, hdead⟩, ?_⟩
    injection h with h
    exact h.symm

/-- A deletion that is carried out has found no layer that is refused. -/
theorem not_refused_of_doomed {seed : ℤ → Bool} {b : ℤ}
    (hroots : ∀ p ∈ db.rows.projects, p.rootLayerId ∉ db.cascaded seed)
    (hb : b ∈ db.doomed seed) : ¬ db.Refused b := by
  rintro ⟨p, hp, x, hx, hroot, hxb⟩
  exact hroots p hp (mem_cascaded.mpr ⟨x, hx, doomed_of_dependsOn hxb hb, hroot⟩)

/-- The ends of an edge of the layers are layers. -/
theorem mem_layers_of_layerEdges {a b : ℤ} (h : (a, b) ∈ db.layerEdges) :
    a ∈ db.layers.map (·.id) ∧ b ∈ db.layers.map (·.id) := by
  rcases List.mem_append.mp h with h | h
  · obtain ⟨l, hl, h⟩ := List.mem_flatMap.mp h
    obtain ⟨p, hp, heq⟩ := List.mem_map.mp h
    obtain ⟨rfl, rfl⟩ := Prod.mk.inj heq
    exact ⟨List.mem_map_of_mem hl, db.parent_fkey l hl _ (Option.mem_toList.mp hp)⟩
  · obtain ⟨l, hl, h⟩ := List.mem_flatMap.mp h
    obtain ⟨b, hb, heq⟩ := List.mem_map.mp h
    obtain ⟨rfl, rfl⟩ := Prod.mk.inj heq
    exact ⟨List.mem_map_of_mem hl, db.base_fkey l hl _ (Option.mem_toList.mp hb)⟩

/-- On the way from a protected layer to one that is not, an edge leaves the protected ones. -/
theorem exists_protected_edge {a d : ℤ} (had : DependsOn db.layerEdges a d)
    (ha : db.Protected a) (hd : ¬ db.Protected d) :
    ∃ x y, db.Protected x ∧ db.Collectable y ∧ (x, y) ∈ db.layerEdges ∧
      DependsOn db.layerEdges y d := by
  induction had using Relation.ReflTransGen.head_induction_on with
  | refl => exact absurd ha hd
  | @head a c hedge hcd ih =>
    rcases collectable_or_protected (mem_layers_of_layerEdges hedge).2 with hc | hc
    · exact ⟨a, c, ha, hc, hedge, hcd⟩
    · exact ih hc

theorem Collectable.not_protected {a : ℤ} (h : db.Collectable a) : ¬ db.Protected a := by
  obtain ⟨l, hl, rfl, hkind⟩ := h
  rintro ⟨l', hl', hid, hkind'⟩
  have heq : l' = l := eq_of_key db.layers_nodup hl' hl hid
  rw [heq, hkind] at hkind'
  cases hkind'

/-! ### The exact condition -/

/-- No protected layer hangs on the given one, and each layer that refers to it depends on it
through the four edges. -/
def Covered (b : ℤ) : Prop :=
  (∀ a, db.Protected a → (a, b) ∉ db.layerEdges) ∧
    ∀ a, db.Refers a b → db.Collectable a ∧ DependsOn db.doomedEdges a b

end LayeredStore

open LayeredStore

variable {db : LayeredStore}

private theorem sameRows_of_covered
    (h : ∀ b, db.Collectable b → db.Refused b ∨ db.Covered b) {seed : ℤ → Bool}
    {db' : LayeredStore} (hok : db.deleteDoomedClosure seed = .ok db') :
    SameRowsOnSurvivors db db' := by
  obtain ⟨hroots, rfl⟩ := deleteDoomedClosure_eq_ok hok
  -- nothing the query has found is refused, so all of it is covered
  have hcovered : ∀ b ∈ db.doomed seed, db.Collectable b → db.Covered b := fun b hb hcoll =>
    (h b hcoll).resolve_left (not_refused_of_doomed hroots hb)
  have hprot : ∀ a, db.Protected a → a ∉ db.cascaded seed := by
    intro a ha hdead
    obtain ⟨d, hd, hdoomed, had⟩ := mem_cascaded.mp hdead
    obtain ⟨x, y, hx, hy, hedge, hyd⟩ := exists_protected_edge had ha hd.not_protected
    have hy' : y ∈ db.doomed seed := doomed_of_dependsOn (hyd.mono layerEdges_subset) hdoomed
    exact (hcovered y hy' hy).1 x hx hedge
  refine (sameRows_dropLayers_iff _ hroots).mpr ⟨hprot, ?_⟩
  intro a b href hb
  have hcoll : db.Collectable b :=
    (collectable_or_protected href.mem_layers_right).resolve_right fun hp => hprot b hp hb
  have hb' := doomed_of_cascaded hb
  obtain ⟨ha, hab⟩ := (hcovered b hb' hcoll).2 a href
  exact cascaded_of_doomed ha (doomed_of_dependsOn hab hb')

private theorem covered_of_sameRows
    (h : ∀ seed db', db.deleteDoomedClosure seed = .ok db' → SameRowsOnSurvivors db db')
    {b : ℤ} (hb : db.Collectable b) (hrefused : ¬ db.Refused b) : db.Covered b := by
  -- the layer is deleted alone, by its id
  have hdoomed : ∀ {a}, a ∈ db.doomed (fun id => id == b) ↔ DependsOn db.doomedEdges a b := by
    intro a
    rw [mem_doomed]
    constructor
    · rintro ⟨c, -, hc, hac⟩
      rw [beq_iff_eq] at hc
      exact hc ▸ hac
    · intro hab
      exact ⟨b, hb, beq_self_eq_true b, hab⟩
  have hbdead : b ∈ db.cascaded fun id => id == b :=
    cascaded_of_doomed hb (hdoomed.mpr Relation.ReflTransGen.refl)
  have hroots : ∀ p ∈ db.rows.projects, p.rootLayerId ∉ db.cascaded fun id => id == b := by
    intro p hp hdead
    obtain ⟨x, hx, hxb, hroot⟩ := mem_cascaded.mp hdead
    exact hrefused ⟨p, hp, x, hx, hroot, hdoomed.mp hxb⟩
  have hok : db.deleteDoomedClosure (fun id => id == b) =
      .ok (db.dropLayers _ (fun _ _ hedge hb => closure_closed hedge hb) hroots) :=
    dif_neg fun hex => hroots hex.choose hex.choose_spec.1 hex.choose_spec.2
  obtain ⟨hprot, hrefs⟩ := (sameRows_dropLayers_iff _ hroots).mp (h _ _ hok)
  constructor
  · intro a ha hedge
    exact hprot a ha (closure_closed hedge hbdead)
  · intro a href
    have hdead := hrefs a b href hbdead
    have ha : db.Collectable a :=
      (collectable_or_protected href.mem_layers).resolve_right fun hp => hprot a hp hdead
    exact ⟨ha, hdoomed.mp (doomed_of_cascaded hdead)⟩

/-- **No collection leaves a hollow layer or takes a protected one exactly when, of each
ephemeral layer, the server refuses the deletion, or no protected layer hangs on it and each
layer that refers to it is an ephemeral one that depends on it through the four edges.** -/
theorem collects_whole_layers_iff :
    (∀ seed db', db.deleteDoomedClosure seed = .ok db' → SameRowsOnSurvivors db db') ↔
      ∀ b, db.Collectable b → db.Refused b ∨ db.Covered b := by
  constructor
  · intro h b hb
    by_cases hrefused : db.Refused b
    · exact Or.inl hrefused
    · exact Or.inr (covered_of_sameRows h hb hrefused)
  · intro h seed db' hok
    exact sameRows_of_covered h hok

/-- A project, and two ephemeral layers: one with a file, one with an instance of a symbol of
the project in that file. -/
def ephemeralObject : LayeredStore where
  rows :=
    { Database.singleFile [.plain 1 ['s']]
        [⟨-7, 1, -5, .bounded 0 1 (by decide), 1, -1000002⟩] []
        (.refl true) (.refl true) (.refl true) with
      objects := [⟨-5, 1, ['/', 'f'], -1000001⟩]
      objects_nodup := by decide }
  layers := [⟨1, none, none, [1], .root, true, false⟩,
    ⟨-1000001, some 1, none, [2], .ephemeral, true, false⟩,
    ⟨-1000002, some 1, none, [3], .ephemeral, true, false⟩]
  layers_nodup := by decide
  parent_fkey := by decide
  base_fkey := by decide
  symbols_layer_fkey := by decide
  objects_layer_fkey := by decide
  instances_layer_fkey := by decide
  refs_layer_fkey := by decide
  instances_symbol_fkey := by decide
  instances_object_fkey := by decide
  refs_symbol_fkey := by decide
  refs_object_fkey := by decide
  projects_root_fkey := by decide
  symbols_sign := by decide
  objects_sign := by decide
  instances_sign := by decide
  refs_sign := by decide

/-- With the file's layer the instance goes, and its own layer stays. -/
theorem not_whole_ephemeralObject :
    ¬ ∀ seed db', ephemeralObject.deleteDoomedClosure seed = .ok db' →
      SameRowsOnSurvivors ephemeralObject db' := by
  intro h
  have hrows : (ephemeralObject.deleteEphLayer (-1000001)).map
      (fun db => (db.layers.map (·.id), db.rows.symbolInstances)) = .ok ([1, -1000002], []) := by
    decide +kernel
  obtain ⟨db', hok, heq⟩ := Fallible.map_eq_ok.mp hrows
  obtain ⟨hlayers, hinstances⟩ := Prod.mk.inj heq
  have hmem : (-1000002 : ℤ) ∈ db'.layers.map (·.id) := by rw [hlayers]; decide
  obtain ⟨l, hl, hid⟩ := List.mem_map.mp hmem
  have hsame := (h _ db' hok).symbolInstances l hl
  rw [hinstances, hid] at hsame
  exact absurd hsame (by decide)

end Askl
