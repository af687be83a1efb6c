import Askl.Index.Projects
import Askl.Store.Isolation

/-!
# What queries see of a store

The joins of the index read the tables that uploads write, next to the rows of ephemeral layers.
In every store that requests lead to, the rows of the tables are each of one project; so the
queries over the root layers keep to one project, and find every row that was uploaded.

## Main definitions

* `symbolTypeLevels` — the levels of the symbol types.
* `Store.ShownBy` — the persistent rows of a database are those of a store.
* `Store.Isolated.database` — the store as a database, with no ephemeral layer.

## Main results

* `Store.Isolated.apart` — the rows on root layers are each of one project.
* `queriesApart_of_run` — **no query of root layers mixes the rows of two projects.**
* `queriesExact_of_run` — **such a query finds every row that was uploaded, once.**
-/

namespace Askl

/-- The levels in `symbol_types`, after the shift that made room for fields. -/
def symbolTypeLevels : List SymbolType :=
  [⟨1, 2⟩, ⟨2, 3⟩, ⟨3, 4⟩, ⟨4, 5⟩, ⟨5, 2⟩, ⟨6, 2⟩, ⟨7, 2⟩, ⟨8, 1⟩, ⟨9, 1⟩]

/-- A type that an upload may give a symbol has a level. -/
theorem exists_of_validateSymbolType {symbolType : ℤ}
    (h : validateSymbolType symbolType = .ok symbolType) :
    ∃ t ∈ symbolTypeLevels, t.id = symbolType := by
  unfold validateSymbolType validateType at h
  split at h
  · next hvalid =>
    have hall : ∀ value ∈ [1, 2, 3, 4, 5, 6, 7, 8], ∃ t ∈ symbolTypeLevels, t.id = value := by
      decide
    exact hall symbolType (List.contains_iff_mem.mp hvalid)
  · cases h

/-- The columns of an uploaded symbol that the joins read, and its name, path and leaf. -/
def NewSymbol.shown (y : NewSymbol) : Symbol :=
  ⟨y.id, y.name, y.symbolPath, y.projectId, y.symbolType, y.leafName, y.layer⟩

/-- The columns of an object that queries read. -/
def ObjectRow.shown (o : ObjectRow) : Object :=
  ⟨o.id, o.row.projectId, o.row.filesystemPath, o.row.layer⟩

/-- The columns of a project that queries read. -/
def ProjectRow.shown (p : ProjectRow) : Project := ⟨p.id, p.projectName, p.rootLayerId⟩

namespace Store

/-- The rows of a database on root layers are those of a store; the others are of ephemeral
layers. -/
structure ShownBy (s : Store) (db : Database) : Prop where
  projects : db.projects = s.projects.map (·.shown)
  symbolTypes : db.symbolTypes = symbolTypeLevels
  symbols : (db.symbols.filter fun y => decide (0 < y.layer)).Perm (s.symbols.map (·.shown))
  objects : (db.objects.filter fun o => decide (0 < o.layer)).Perm (s.objects.map (·.shown))
  symbolInstances : (db.symbolInstances.filter fun i => decide (0 < i.layer)).Perm
    s.symbolInstances
  symbolRefs : (db.symbolRefs.filter fun f => decide (0 < f.layer)).Perm s.symbolRefs

variable {s : Store} {db : Database}

namespace ShownBy

variable (hs : s.ShownBy db)

include hs

theorem mem_project {p : ProjectRow} (hp : p ∈ s.projects) : p.shown ∈ db.projects := by
  rw [hs.projects]
  exact List.mem_map_of_mem hp

theorem mem_symbol {y : NewSymbol} (hy : y ∈ s.symbols) : y.shown ∈ db.symbols := by
  apply List.mem_of_mem_filter
  rw [hs.symbols.mem_iff]
  exact List.mem_map_of_mem hy

theorem mem_object {o : ObjectRow} (ho : o ∈ s.objects) : o.shown ∈ db.objects := by
  apply List.mem_of_mem_filter
  rw [hs.objects.mem_iff]
  exact List.mem_map_of_mem ho

theorem mem_instance {i : SymbolInstance} (hi : i ∈ db.symbolInstances) (hpos : 0 < i.layer) :
    i ∈ s.symbolInstances := by
  rw [← hs.symbolInstances.mem_iff]
  exact List.mem_filter.mpr ⟨hi, decide_eq_true hpos⟩

theorem mem_ref {f : SymbolRef} (hf : f ∈ db.symbolRefs) (hpos : 0 < f.layer) :
    f ∈ s.symbolRefs := by
  rw [← hs.symbolRefs.mem_iff]
  exact List.mem_filter.mpr ⟨hf, decide_eq_true hpos⟩

end ShownBy

namespace Isolated

variable (h : s.Isolated)

include h

/-- A row that keeps within the project of its object is of that project. -/
theorem files (hids : s.nextProjectId ≤ 2 ^ 31) (hs : s.ShownBy db) {objectId symbol layer : ℤ}
    (hwithin : s.Within objectId symbol layer) (hsymbol : ∃ y ∈ s.symbols, y.id = symbol) :
    ∃ p : Project, p.Files db objectId symbol layer := by
  obtain ⟨y, hy, rfl⟩ := hsymbol
  obtain ⟨o, ho, rfl, -⟩ := id hwithin
  obtain ⟨hproject, hlayer⟩ := h.symbol_eq hids ho hy hwithin
  have hroot := h.layer_eq ho hwithin
  obtain ⟨p, hp, hpid, hproot⟩ := h.filed.objects o ho
  obtain ⟨t, ht, htid⟩ := exists_of_validateSymbolType (h.symbolTypes y hy)
  refine ⟨p.shown, hs.mem_project hp, hroot.trans hproot.symm, ?_, ?_⟩
  · exact ⟨o.shown, hs.mem_object ho, rfl, hpid.symm, hproot.symm⟩
  · refine ⟨y.shown, hs.mem_symbol hy, rfl, hproject.trans hpid.symm, hlayer.trans hproot.symm,
      t, ?_, htid⟩
    rw [hs.symbolTypes]
    exact ht

/-- **The rows on root layers are each of one project.** -/
theorem apart (hids : s.nextProjectId ≤ 2 ^ 31) (hs : s.ShownBy db) : db.Apart where
  instances i hi hpos := by
    have hi := hs.mem_instance hi hpos
    exact h.files hids hs (h.rows.instances i hi) (h.constrained.instanceSymbols i hi)
  refs f hf hpos := by
    have hf := hs.mem_ref hf hpos
    exact h.files hids hs (h.rows.refs f hf) (h.constrained.refSymbols f hf)

omit h in
/-- The rows of a project are on a positive layer. -/
theorem pos_of_rootOf (h : s.Isolated) {projectId layer : ℤ} (hroot : s.RootOf projectId layer) :
    0 < layer := by
  obtain ⟨p, hp, -, rfl⟩ := hroot
  exact h.filed.roots.projects p hp

/-- The store as a database, with no ephemeral layer: its keys are those the store keeps. -/
def database (lower : Char → Char) : Database where
  projects := s.projects.map (·.shown)
  objects := s.objects.map (·.shown)
  symbolTypes := symbolTypeLevels
  symbols := s.symbols.map (·.shown)
  symbolInstances := s.symbolInstances
  symbolRefs := s.symbolRefs
  lower := lower
  projects_nodup := by
    rw [List.map_map]
    exact h.filed.projectIds
  objects_nodup := by
    rw [List.map_map]
    exact h.constrained.objectIds
  symbolTypes_nodup := by decide
  symbols_nodup := by
    rw [List.map_map]
    exact h.symbolIds
  symbolInstances_nodup := h.rows.instanceIds
  symbolRefs_nodup := h.rows.refIds

theorem shownBy_database (lower : Char → Char) : s.ShownBy (h.database lower) where
  projects := rfl
  symbolTypes := rfl
  symbols := by
    apply List.Perm.of_eq
    apply List.filter_eq_self.mpr
    intro y' hy'
    obtain ⟨y, hy, rfl⟩ := List.mem_map.mp hy'
    exact decide_eq_true (h.pos_of_rootOf (h.symbols y hy).2)
  objects := by
    apply List.Perm.of_eq
    apply List.filter_eq_self.mpr
    intro o' ho'
    obtain ⟨o, ho, rfl⟩ := List.mem_map.mp ho'
    exact decide_eq_true (h.pos_of_rootOf (h.filed.rootOf_object ho))
  symbolInstances := by
    apply List.Perm.of_eq
    apply List.filter_eq_self.mpr
    intro i hi
    obtain ⟨o, -, -, -, hroot⟩ := h.rows.instances i hi
    exact decide_eq_true (h.pos_of_rootOf hroot)
  symbolRefs := by
    apply List.Perm.of_eq
    apply List.filter_eq_self.mpr
    intro f hf
    obtain ⟨o, -, -, -, hroot⟩ := h.rows.refs f hf
    exact decide_eq_true (h.pos_of_rootOf hroot)

end Isolated

end Store

/-! ### Queries over a store -/

section Queries

variable {hashBytes : Bytes → Text} {guard : UploadState → Request → Bool}
  {canaryRootHash : Bytes} (hcanary : canaryRootHash ≠ canaryHash) {st : UploadState}
  (hrun : Relation.ReflTransGen (UploadStep hashBytes guard) (.initial canaryRootHash) st)
  (hids : st.store.nextProjectId ≤ 2 ^ 31) {db : Database} (hs : st.store.ShownBy db)
  {vis : VisibilitySpec} (hvis : ∀ layer ∈ vis.visible, 0 < layer)

include hcanary hrun hids hs hvis

/-- **No query of root layers mixes the rows of two projects**, in whatever store requests lead
to and whatever is in the ephemeral layers. -/
theorem queriesApart_of_run : QueriesApart db vis := by
  have hisolated := isolated_of_run hcanary hrun
  have hapart := hisolated.apart hids hs
  exact hapart.queriesApart hvis

/-- **A query of root layers finds every row that was uploaded, once**: the joins lose none. -/
theorem queriesExact_of_run : QueriesExact db vis := by
  have hisolated := isolated_of_run hcanary hrun
  have hapart := hisolated.apart hids hs
  exact hapart.queriesExact hvis

end Queries

/-! ### Two projects with the same file -/

/-- The chunks of a project of one file `/a`, whose one function `f` refers to itself. -/
def recursiveChunks (projectId : ℤ) (name : Text) : List Request :=
  [.symbolChunk projectId 0 ⟨name, ['/'], [], [⟨1, ['f'], 1, 0⟩]⟩,
    .objectChunk projectId 0 ⟨name, ['/'],
      [⟨1, [], ['/', 'a'], [], [], [], [⟨1, 1, 0, 9⟩], [⟨1, 2, 3⟩]⟩], []⟩]

/-- The uploads of two such projects, the second before the first. -/
def twoUploads : List Request :=
  [.uploadIndex ⟨['p'], ['/'], [], []⟩ (some 1) (some 1) [1],
    .uploadIndex ⟨['q'], ['/'], [], []⟩ (some 1) (some 1) [2]] ++
    recursiveChunks 2 ['q'] ++ recursiveChunks 1 ['p']

/-- Both projects have their instance and their reference. -/
theorem exists_run_twoUploads : ∃ st,
    Relation.ReflTransGen (UploadStep (fun _ => emptyDigest) fun _ _ => true) (.initial [0]) st ∧
      st.store.nextProjectId ≤ 2 ^ 31 ∧
        st.store.symbolInstances.map (·.layer) = [4, 3] ∧
          st.store.symbolRefs.map (·.layer) = [4, 3] := by
  obtain ⟨st, hst, hobs⟩ := Option.map_eq_some_iff.mp (show
    (serveAll (fun _ => emptyDigest) (fun _ _ => true) (.initial [0]) twoUploads).map
      (fun st => decide (st.store.nextProjectId ≤ 2 ^ 31 ∧
        st.store.symbolInstances.map (·.layer) = [4, 3] ∧
          st.store.symbolRefs.map (·.layer) = [4, 3])) = some true
    by decide +kernel)
  exact ⟨st, run_of_serveAll hst, of_decide_eq_true hobs⟩

/-- A query over both roots does not mix the two projects. -/
theorem queriesApart_twoUploads : ∃ (st : UploadState) (db : Database),
    Relation.ReflTransGen (UploadStep (fun _ => emptyDigest) fun _ _ => true) (.initial [0]) st ∧
      st.store.ShownBy db ∧ st.store.symbolRefs.map (·.layer) = [4, 3] ∧
        QueriesApart db (.rootOnly [3, 4]) := by
  obtain ⟨st, hrun, hids, -, hrefs⟩ := exists_run_twoUploads
  have hisolated := isolated_of_run (by decide) hrun
  have hshown := hisolated.shownBy_database id
  exact ⟨st, _, hrun, hshown, hrefs, queriesApart_of_run (by decide) hrun hids hshown (by decide)⟩

/-- A query over both roots finds the instances of both. -/
theorem queriesExact_twoUploads : ∃ (st : UploadState) (db : Database),
    Relation.ReflTransGen (UploadStep (fun _ => emptyDigest) fun _ _ => true) (.initial [0]) st ∧
      st.store.ShownBy db ∧ st.store.symbolInstances.map (·.layer) = [4, 3] ∧
        QueriesExact db (.rootOnly [3, 4]) := by
  obtain ⟨st, hrun, hids, hinstances, -⟩ := exists_run_twoUploads
  have hisolated := isolated_of_run (by decide) hrun
  have hshown := hisolated.shownBy_database id
  exact ⟨st, _, hrun, hshown, hinstances,
    queriesExact_of_run (by decide) hrun hids hshown (by decide)⟩

end Askl
