import Askl.Store.StoredRows

/-!
# Deletion takes a project and nothing else

A deletion removes rows by the range of their symbol's id, by their project and by what cascades
from these and from the root layer.  Because projects do not mix, all of it removes the rows of
the one project; and as its id is not given out again, nothing of it comes back.

## Main definitions

* `Store.OfOther` — the object of a row is of another project.
* `Store.Less` — a store without some of the rows of a project.
* `Store.Removed` — a store without a project, and otherwise the same.
* `Store.Gone` — nothing of a project is there.
* `Store.Absent` — a project is not there, and its id is not given out again.

## Main results

* `Store.Isolated.removed` — **a deletion removes the rows of its project and no others.**
* `removed_of_run` — so it does in every store that requests lead to.
* `gone_of_run` — **after a deletion nothing of the project comes back.**
-/

namespace Askl

namespace Store

variable {s s' x : Store} {projectId : ℤ}

/-- The object of a row is there, and of another project. -/
def OfOther (s : Store) (projectId objectId : ℤ) : Prop :=
  ∃ o ∈ s.objects, o.id = objectId ∧ o.row.projectId ≠ projectId

/-- A store without some of the rows of a project: those of the others are there. -/
structure Less (projectId : ℤ) (s x : Store) : Prop where
  symbols : ∀ y ∈ s.symbols, y.projectId ≠ projectId → y ∈ x.symbols
  objects : ∀ o ∈ s.objects, o.row.projectId ≠ projectId → o ∈ x.objects
  instances : ∀ i ∈ s.symbolInstances, s.OfOther projectId i.objectId → i ∈ x.symbolInstances
  refs : ∀ r ∈ s.symbolRefs, s.OfOther projectId r.fromObject → r ∈ x.symbolRefs

/-- A store without a project, and otherwise the same; its cached layers are gone as well. -/
structure Removed (s s' : Store) (projectId : ℤ) : Prop where
  projects : s'.projects = s.projects.filter (·.id != projectId)
  symbolChunks : s'.symbolChunks = s.symbolChunks.filter (·.projectId != projectId)
  objectChunks : s'.objectChunks = s.objectChunks.filter (·.projectId != projectId)
  symbols : ∀ y, y ∈ s'.symbols ↔ y ∈ s.symbols ∧ y.projectId ≠ projectId
  objects : ∀ o, o ∈ s'.objects ↔ o ∈ s.objects ∧ o.row.projectId ≠ projectId
  symbolInstances : ∀ i, i ∈ s'.symbolInstances ↔
    i ∈ s.symbolInstances ∧ s.OfOther projectId i.objectId
  symbolRefs : ∀ r, r ∈ s'.symbolRefs ↔ r ∈ s.symbolRefs ∧ s.OfOther projectId r.fromObject
  contentStore : s'.contentStore = s.contentStore
  layers : ∀ l, l ∈ s'.layers ↔
    l ∈ s.layers ∧ l.kind.isProtected = true ∧ ¬s.RootOf projectId l.id

/-- Nothing of a project is there. -/
structure Gone (s : Store) (projectId : ℤ) : Prop where
  projects : ∀ p ∈ s.projects, p.id ≠ projectId
  symbolChunks : ∀ c ∈ s.symbolChunks, c.projectId ≠ projectId
  objectChunks : ∀ c ∈ s.objectChunks, c.projectId ≠ projectId
  symbols : ∀ y ∈ s.symbols, y.projectId ≠ projectId
  objects : ∀ o ∈ s.objects, o.row.projectId ≠ projectId
  symbolInstances : ∀ i ∈ s.symbolInstances, s.OfOther projectId i.objectId
  symbolRefs : ∀ r ∈ s.symbolRefs, s.OfOther projectId r.fromObject

/-! ### Rows of other projects -/

/-- A root is that of one project. -/
theorem Filed.project_of_root (h : s.Filed) {p q layer : ℤ} (hp : s.RootOf p layer)
    (hq : s.RootOf q layer) : q = p := by
  obtain ⟨a, ha, rfl, rfl⟩ := hp
  obtain ⟨b, hb, rfl, hroot⟩ := hq
  rw [List.inj_on_of_nodup_map h.rootIds hb ha hroot]

/-- The ids in the range of a project are ids of the project; the last one has no range. -/
theorem symbolIdOf_of_range {id : ℤ} (hpos : 0 < projectId) (hlt : projectId < 2 ^ 31)
    (hlow : projectSymbolIdBase projectId ≤ id)
    (hhigh : id < projectSymbolIdBase (projectId + 1)) : SymbolIdOf projectId id := by
  by_cases hlast : projectId < 2 ^ 31 - 1
  · obtain ⟨bounds, hbounds, hmem⟩ := mem_range_iff false hpos hlast
    rw [projectSymbolRange_false] at hbounds
    obtain rfl := Option.some.inj hbounds
    -- the bounds, and not the components of a pair
    simp only at hmem
    rw [SymbolIdOf, ← hmem]
    exact ⟨hlow, hhigh⟩
  · have heq : projectId = 2 ^ 31 - 1 := by omega
    have hbounds : projectSymbolRange false (2 ^ 31 - 1) =
        some (projectSymbolIdBase projectId, projectSymbolIdBase (projectId + 1)) := by
      rw [← heq]
      exact projectSymbolRange_false projectId
    have hnot := projectSymbolRange_last false hbounds id
    simp only at hnot
    exact absurd (And.intro hlow hhigh) hnot

namespace Isolated

variable (h : s.Isolated) (hids : s.nextProjectId ≤ 2 ^ 31)

include h

/-- The row is on a root that is not the project's. -/
theorem layer_ne {objectId symbol layer root : ℤ} (hwithin : s.Within objectId symbol layer)
    (hother : s.OfOther projectId objectId) (hroot : s.RootOf projectId root) :
    layer ≠ root := by
  obtain ⟨o, ho, rfl, hne⟩ := hother
  rintro rfl
  rw [h.layer_eq ho hwithin] at hroot
  exact hne (h.filed.project_of_root hroot (h.filed.rootOf_object ho))

include hids

/-- The symbol of the row is of another project as well. -/
theorem exists_symbol {objectId symbol layer : ℤ} (hwithin : s.Within objectId symbol layer)
    (hsymbol : ∃ y ∈ s.symbols, y.id = symbol) (hother : s.OfOther projectId objectId) :
    ∃ y ∈ s.symbols, y.id = symbol ∧ y.projectId ≠ projectId := by
  obtain ⟨y, hy, rfl⟩ := hsymbol
  obtain ⟨o, ho, rfl, hne⟩ := hother
  refine ⟨y, hy, rfl, ?_⟩
  rw [(h.symbol_eq hids ho hy hwithin).1]
  exact hne

/-- The id of the symbol is not in the range of the project. -/
theorem not_range {objectId symbol layer : ℤ} (hwithin : s.Within objectId symbol layer)
    (hother : s.OfOther projectId objectId) (hpos : 0 < projectId) (hlt : projectId < 2 ^ 31) :
    ¬(projectSymbolIdBase projectId ≤ symbol ∧ symbol < projectSymbolIdBase (projectId + 1)) := by
  rintro ⟨hlow, hhigh⟩
  have hown := symbolIdOf_of_range hpos hlt hlow hhigh
  obtain ⟨o, ho, rfl, hne⟩ := hother
  obtain ⟨o', ho', hid, hsymbol, hroot⟩ := hwithin
  obtain rfl := h.constrained.eq_of_id ho' ho hid
  exact hne (hown.inj hlt hsymbol (h.projectId_lt hids hroot))

end Isolated

/-! ### What a deletion leaves -/

theorem Less.refl : Less projectId s s where
  symbols _ hy _ := hy
  objects _ ho _ := ho
  instances _ hi _ := hi
  refs _ hr _ := hr

/-- Only the rows count. -/
theorem Less.of_rows (h : Less projectId s x) (hsymbols : s'.symbols = x.symbols)
    (hobjects : s'.objects = x.objects) (hinstances : s'.symbolInstances = x.symbolInstances)
    (hrefs : s'.symbolRefs = x.symbolRefs) : Less projectId s s' where
  symbols y hy hne := by
    rw [hsymbols]
    exact h.symbols y hy hne
  objects o ho hne := by
    rw [hobjects]
    exact h.objects o ho hne
  instances i hi hother := by
    rw [hinstances]
    exact h.instances i hi hother
  refs r hr hother := by
    rw [hrefs]
    exact h.refs r hr hother

/-- Instances and references that are dropped are of the project. -/
theorem Less.filterRows (h : Less projectId s x) {f : SymbolInstance → Bool}
    {g : SymbolRef → Bool}
    (hinstances : ∀ i ∈ s.symbolInstances, s.OfOther projectId i.objectId → f i = true)
    (hrefs : ∀ r ∈ s.symbolRefs, s.OfOther projectId r.fromObject → g r = true) :
    Less projectId s { x with
      symbolInstances := x.symbolInstances.filter f
      symbolRefs := x.symbolRefs.filter g } where
  symbols := h.symbols
  objects := h.objects
  instances i hi hother := List.mem_filter.mpr ⟨h.instances i hi hother, hinstances i hi hother⟩
  refs r hr hother := List.mem_filter.mpr ⟨h.refs r hr hother, hrefs r hr hother⟩

/-- Objects that are dropped are of the project, and so is what cascades from them. -/
theorem Less.keepObjects (h : Less projectId s x) {k : ObjectRow → Bool}
    (hkeep : ∀ o ∈ s.objects, o.row.projectId ≠ projectId → k o = true) :
    Less projectId s (x.keepObjects k) := by
  have hany : ∀ {objectId}, s.OfOther projectId objectId →
      (x.objects.filter k).any (·.id == objectId) = true := by
    rintro _ ⟨o, ho, rfl, hne⟩
    refine List.any_eq_true.mpr ⟨o, List.mem_filter.mpr ⟨h.objects o ho hne, ?_⟩, by simp⟩
    exact hkeep o ho hne
  have hrows := h.filterRows (f := fun i => (x.objects.filter k).any
    (·.id == i.objectId)) (g := fun r => (x.objects.filter k).any (·.id == r.fromObject))
    (fun i _ hother => hany hother) (fun r _ hother => hany hother)
  exact ⟨h.symbols, fun o ho hne => List.mem_filter.mpr ⟨h.objects o ho hne, hkeep o ho hne⟩,
    hrows.instances, hrows.refs⟩

section Steps

variable (hs : s.Isolated) (hids : s.nextProjectId ≤ 2 ^ 31) (h : Less projectId s x)

include hs hids h

/-- Symbols that are dropped are of the project, and so is what cascades from them. -/
theorem Less.keepSymbols {k : NewSymbol → Bool}
    (hkeep : ∀ y ∈ s.symbols, y.projectId ≠ projectId → k y = true) :
    Less projectId s (x.keepSymbols k) := by
  have hany : ∀ {symbol}, (∃ y ∈ s.symbols, y.id = symbol ∧ y.projectId ≠ projectId) →
      (x.symbols.filter k).any (·.id == symbol) = true := by
    rintro _ ⟨y, hy, rfl, hne⟩
    refine List.any_eq_true.mpr ⟨y, List.mem_filter.mpr ⟨h.symbols y hy hne, ?_⟩, by simp⟩
    exact hkeep y hy hne
  refine ⟨fun y hy hne => List.mem_filter.mpr ⟨h.symbols y hy hne, hkeep y hy hne⟩, h.objects,
    fun i hi hother => List.mem_filter.mpr ⟨h.instances i hi hother, hany ?_⟩,
    fun r hr hother => List.mem_filter.mpr ⟨h.refs r hr hother, hany ?_⟩⟩
  · exact hs.exists_symbol hids (hs.rows.instances i hi) (hs.constrained.instanceSymbols i hi)
      hother
  · exact hs.exists_symbol hids (hs.rows.refs r hr) (hs.constrained.refSymbols r hr) hother

theorem Less.deleteSymbolRange (hpos : 0 < projectId) (hlt : projectId < 2 ^ 31) :
    Less projectId s (x.deleteSymbolRange projectId) := by
  apply h.filterRows
  · intro i hi hother
    have hrange := hs.not_range hids (hs.rows.instances i hi) hother hpos hlt
    rw [Bool.not_eq_true', decide_eq_false_iff_not]
    exact hrange
  · intro r hr hother
    have hrange := hs.not_range hids (hs.rows.refs r hr) hother hpos hlt
    rw [Bool.not_eq_true', decide_eq_false_iff_not]
    exact hrange

theorem Less.deleteProjectRow : Less projectId s (x.deleteProjectRow projectId) := by
  have hsymbols := h.keepSymbols hs hids (k := (·.projectId != projectId))
    fun y _ hne => bne_iff_ne.mpr hne
  have hobjects := hsymbols.keepObjects (k := (·.row.projectId != projectId))
    fun o _ hne => bne_iff_ne.mpr hne
  exact hobjects.of_rows rfl rfl rfl rfl

theorem Less.deleteRootLayer {root : ℤ} (hroot : s.RootOf projectId root) :
    Less projectId s (x.deleteRootLayer root) := by
  have hsymbols := h.keepSymbols hs hids (k := (·.layer != root)) fun y hy hne => by
    apply bne_iff_ne.mpr
    rintro rfl
    exact hne (hs.filed.project_of_root hroot (hs.symbols y hy).2)
  have hobjects := hsymbols.keepObjects (k := (·.row.layer != root)) fun o ho hne => by
    apply bne_iff_ne.mpr
    rintro rfl
    exact hne (hs.filed.project_of_root hroot (hs.filed.rootOf_object ho))
  have hrows := hobjects.filterRows (f := (·.layer != root))
    (g := (·.layer != root))
    (fun i hi hother => bne_iff_ne.mpr (hs.layer_ne (hs.rows.instances i hi) hother hroot))
    (fun r hr hother => bne_iff_ne.mpr (hs.layer_ne (hs.rows.refs r hr) hother hroot))
  exact hrows.of_rows rfl rfl rfl rfl

end Steps

/-! ### What is left is all of the others -/

/-- A project that is not there has no rows. -/
theorem Isolated.gone (h : s.Isolated) (hprojects : ∀ p ∈ s.projects, p.id ≠ projectId)
    (hsymbolChunks : ∀ c ∈ s.symbolChunks, c.projectId ≠ projectId)
    (hobjectChunks : ∀ c ∈ s.objectChunks, c.projectId ≠ projectId) : s.Gone projectId := by
  have hnoRoot : ∀ {q layer : ℤ}, s.RootOf q layer → q ≠ projectId := by
    rintro q layer ⟨p, hp, rfl, -⟩
    exact hprojects p hp
  have hobjects : ∀ o ∈ s.objects, o.row.projectId ≠ projectId := by
    intro o ho
    exact hnoRoot (h.filed.rootOf_object ho)
  refine ⟨hprojects, hsymbolChunks, hobjectChunks, ?_, hobjects, ?_, ?_⟩
  · intro y hy
    exact hnoRoot (h.symbols y hy).2
  · intro i hi
    obtain ⟨o, ho, hid⟩ := h.constrained.instanceObjects i hi
    exact ⟨o, ho, hid, hobjects o ho⟩
  · intro r hr
    obtain ⟨o, ho, hid⟩ := h.constrained.refObjects r hr
    exact ⟨o, ho, hid, hobjects o ho⟩

/-- A store with fewer rows, that has all of the others and nothing of the project. -/
theorem Removed.of_less (hless : Less projectId s s') (hfewer : Fewer s s')
    (hgone : s'.Gone projectId)
    (hprojects : s'.projects = s.projects.filter (·.id != projectId))
    (hsymbolChunks : s'.symbolChunks = s.symbolChunks.filter (·.projectId != projectId))
    (hobjectChunks : s'.objectChunks = s.objectChunks.filter (·.projectId != projectId))
    (hcontents : s'.contentStore = s.contentStore)
    (hlayers : ∀ l, l ∈ s'.layers ↔
      l ∈ s.layers ∧ l.kind.isProtected = true ∧ ¬s.RootOf projectId l.id) :
    Removed s s' projectId := by
  have hother : ∀ {objectId}, s'.OfOther projectId objectId → s.OfOther projectId objectId := by
    rintro _ ⟨o, ho, hid, hne⟩
    exact ⟨o, hfewer.objects.subset ho, hid, hne⟩
  refine ⟨hprojects, hsymbolChunks, hobjectChunks, fun y => ⟨fun hy => ?_, fun hy => ?_⟩,
    fun o => ⟨fun ho => ?_, fun ho => ?_⟩, fun i => ⟨fun hi => ?_, fun hi => ?_⟩,
    fun r => ⟨fun hr => ?_, fun hr => ?_⟩, hcontents, hlayers⟩
  · exact ⟨hfewer.symbols.subset hy, hgone.symbols y hy⟩
  · exact hless.symbols y hy.1 hy.2
  · exact ⟨hfewer.objects.subset ho, hgone.objects o ho⟩
  · exact hless.objects o ho.1 ho.2
  · exact ⟨hfewer.instances.subset hi, hother (hgone.symbolInstances i hi)⟩
  · exact hless.instances i hi.1 hi.2
  · exact ⟨hfewer.refs.subset hr, hother (hgone.symbolRefs r hr)⟩
  · exact hless.refs r hr.1 hr.2

/-- The chunks of the project go, and the contents stay. -/
theorem chunks_deleteProject (s : Store) (projectId : ℤ) :
    (s.deleteProject projectId).store.symbolChunks =
        s.symbolChunks.filter (·.projectId != projectId) ∧
      (s.deleteProject projectId).store.objectChunks =
        s.objectChunks.filter (·.projectId != projectId) ∧
      (s.deleteProject projectId).store.contentStore = s.contentStore := by
  unfold deleteProject
  cases s.findProject projectId with
  | none => exact ⟨rfl, rfl, rfl⟩
  | some p => exact ⟨rfl, rfl, rfl⟩

/-- The root of the project goes, and every cached layer. -/
theorem Filed.layers_deleteProject (h : s.Filed) (l : LayerRow) :
    l ∈ (s.deleteProject projectId).store.layers ↔
      l ∈ s.layers ∧ l.kind.isProtected = true ∧ ¬s.RootOf projectId l.id := by
  unfold Store.deleteProject
  cases hfind : s.findProject projectId with
  | none =>
    have hnone : ¬s.RootOf projectId l.id := by
      rintro ⟨p, hp, hid, -⟩
      exact absurd (List.find?_eq_none.mp hfind p hp) (by simp [hid])
    simp only [Store.purgeEphCache, List.mem_filter]
    exact ⟨fun hl => ⟨hl.1, hl.2, hnone⟩, fun hl => ⟨hl.1, hl.2.1⟩⟩
  | some p =>
    have hroot := rootOf_findProject hfind
    have hrootOf : s.RootOf projectId l.id ↔ l.id = p.rootLayerId := by
      constructor
      · intro hl
        exact h.rootOf_inj hl hroot
      · intro hl
        rw [hl]
        exact hroot
    rw [hrootOf]
    simp only [Store.purgeEphCache, Store.deleteRootLayer, List.mem_filter, bne_iff_ne]
    exact ⟨fun hl => ⟨hl.1.1, hl.2, hl.1.2⟩, fun hl => ⟨⟨hl.1, hl.2.2⟩, hl.2.1⟩⟩

/-- A deletion leaves the rows of the other projects. -/
theorem Isolated.less_deleteProject (h : s.Isolated) (hids : s.nextProjectId ≤ 2 ^ 31)
    (hpos : 0 < projectId) (hlt : projectId < 2 ^ 31) :
    Less projectId s (s.deleteProject projectId).store := by
  have hrange := (Less.refl : Less projectId s s).deleteSymbolRange h hids hpos hlt
  have hsymbols := hrange.keepSymbols h hids (k := (·.projectId != projectId))
    fun y _ hne => bne_iff_ne.mpr hne
  have hobjects := hsymbols.keepObjects (k := (·.row.projectId != projectId))
    fun o _ hne => bne_iff_ne.mpr hne
  have hrow := hobjects.deleteProjectRow h hids
  unfold Store.deleteProject
  cases hfind : s.findProject projectId with
  | none => exact hrow.of_rows rfl rfl rfl rfl
  | some p =>
    have hroot := hrow.deleteRootLayer h hids (rootOf_findProject hfind)
    exact hroot.of_rows rfl rfl rfl rfl

/-- What a filter by a project leaves is of others. -/
theorem ne_of_eq_filter {α : Type} {key : α → ℤ} {rows rows' : List α}
    (h : rows' = rows.filter (key · != projectId)) : ∀ r ∈ rows', key r ≠ projectId := by
  rintro r hr rfl
  rw [h] at hr
  exact bne_iff_ne.mp (List.mem_filter.mp hr).2 rfl

/-- **A deletion removes the rows of its project and no others.** -/
theorem Isolated.removed (h : s.Isolated) (hids : s.nextProjectId ≤ 2 ^ 31)
    (hpos : 0 < projectId) (hlt : projectId < 2 ^ 31) :
    Removed s (s.deleteProject projectId).store projectId := by
  have hprojects := projects_deleteProject s projectId
  obtain ⟨hsymbolChunks, hobjectChunks, hcontents⟩ := chunks_deleteProject s projectId
  obtain ⟨x, hfewer, -, -, hrest⟩ := deleteProject_cases s projectId
  have hgone := (h.deleteProject projectId).gone (ne_of_eq_filter hprojects)
    (ne_of_eq_filter hsymbolChunks) (ne_of_eq_filter hobjectChunks)
  exact .of_less (h.less_deleteProject hids hpos hlt) (hfewer.trans hrest) hgone hprojects
    hsymbolChunks hobjectChunks hcontents h.filed.layers_deleteProject

/-! ### A deleted project stays away -/

/-- A project is not there, has no chunks, and its id is not given out again. -/
structure Absent (s : Store) (projectId : ℤ) : Prop where
  projects : ∀ p ∈ s.projects, p.id ≠ projectId
  symbolChunks : ∀ c ∈ s.symbolChunks, c.projectId ≠ projectId
  objectChunks : ∀ c ∈ s.objectChunks, c.projectId ≠ projectId
  next : projectId < s.nextProjectId

namespace Absent

variable (h : s.Absent projectId)

include h

/-- Only the uploads count. -/
theorem of_same (hsame : SameUploads s s') : s'.Absent projectId where
  projects := hsame.projects ▸ h.projects
  symbolChunks := hsame.symbolChunks ▸ h.symbolChunks
  objectChunks := hsame.objectChunks ▸ h.objectChunks
  next := hsame.nextProjectId ▸ h.next

/-- Fewer projects and chunks. -/
theorem of_subset (hprojects : s'.projects ⊆ s.projects)
    (hsymbolChunks : s'.symbolChunks ⊆ s.symbolChunks)
    (hobjectChunks : s'.objectChunks ⊆ s.objectChunks)
    (hnext : s'.nextProjectId = s.nextProjectId) : s'.Absent projectId where
  projects p hp := h.projects p (hprojects hp)
  symbolChunks c hc := h.symbolChunks c (hsymbolChunks hc)
  objectChunks c hc := h.objectChunks c (hobjectChunks hc)
  next := by
    rw [hnext]
    exact h.next

theorem setStatus (id : ℤ) (status : UploadStatus) :
    (s.setStatus id status).Absent projectId where
  projects p' hp' := by
    obtain ⟨p, hp, rfl⟩ := List.mem_map.mp hp'
    split
    · exact h.projects p hp
    · exact h.projects p hp
  symbolChunks := h.symbolChunks
  objectChunks := h.objectChunks
  next := h.next

/-- A chunk is recorded for a project that is there. -/
theorem ne_of_findProject {id : ℤ} (hfind : (s.findProject id).isSome = true) :
    id ≠ projectId := by
  obtain ⟨p, hp⟩ := Option.isSome_iff_exists.mp hfind
  obtain ⟨hmem, rfl⟩ := findProject_eq_some hp
  exact h.projects p hmem

theorem deleteProject (id : ℤ) : (s.deleteProject id).store.Absent projectId := by
  unfold Store.deleteProject
  cases s.findProject id with
  | none =>
    exact h.of_subset List.filter_sublist.subset List.filter_sublist.subset
      List.filter_sublist.subset rfl
  | some p =>
    exact h.of_subset List.filter_sublist.subset List.filter_sublist.subset
      List.filter_sublist.subset rfl

theorem cleared {purged : Bool} (hc : Cleared s s' purged) : s'.Absent projectId := by
  rcases hc with ⟨rfl, -⟩ | ⟨z, -, -, -, rfl⟩
  · exact h
  · exact h.of_subset List.filter_sublist.subset List.filter_sublist.subset
      List.filter_sublist.subset rfl

theorem insertProject {projectName rootPath : Text} {symbolTotal objectTotal : Option ℤ}
    {rootHash : Bytes} {created : ℤ × Store}
    (hc : s.insertProject projectName rootPath symbolTotal objectTotal rootHash = .ok created) :
    created.2.Absent projectId := by
  obtain ⟨-, hnext, hprojects, hsymbolChunks, hobjectChunks, -⟩ := insertProject_ok hc
  refine ⟨?_, hsymbolChunks ▸ h.symbolChunks, hobjectChunks ▸ h.objectChunks, ?_⟩
  · rw [hprojects, List.forall_mem_append, List.forall_mem_singleton]
    exact ⟨h.projects, h.next.ne'⟩
  · rw [hnext]
    exact h.next.trans (Int.lt_succ _)

/-- **No request brings a project back.** -/
theorem handle {hashBytes : Bytes → Text} {req : Request} {c : Committed Response}
    (hhandle : s.handle hashBytes req = .ok c) : c.store.Absent projectId := by
  cases handle_cases hhandle with
  | resumed | symbolChunkAgain | objectChunkAgain | notFinalized | notMarked => exact h
  | created hcleared hcreated => exact (h.cleared hcleared).insertProject hcreated
  | @symbolChunk id seq _ _ _ hproject hinsert =>
    have hrecord : (s.recordSymbolChunk id seq).Absent projectId := by
      refine ⟨h.projects, List.forall_mem_append.mpr ⟨h.symbolChunks, ?_⟩, h.objectChunks, h.next⟩
      exact List.forall_mem_singleton.mpr (h.ne_of_findProject hproject)
    exact hrecord.of_same (sameUploads_insertSymbols hinsert)
  | @objectChunk id seq _ _ _ hproject hinsert =>
    have hrecord : (s.recordObjectChunk id seq).Absent projectId := by
      refine ⟨h.projects, h.symbolChunks, List.forall_mem_append.mpr ⟨h.objectChunks, ?_⟩, h.next⟩
      exact List.forall_mem_singleton.mpr (h.ne_of_findProject hproject)
    exact hrecord.of_same (sameUploads_doUploadObjects hinsert)
  | contents _ => exact h.of_same (sameUploads_insertContents s _)
  | @finalized id =>
    have hstatus := h.setStatus id .complete
    exact ⟨hstatus.projects, hstatus.symbolChunks, hstatus.objectChunks, hstatus.next⟩
  | marked => exact h.setStatus _ .deleting
  | deleted => exact h.deleteProject _

end Absent

/-- A deletion leaves nothing to come back. -/
theorem absent_deleteProject (hnext : projectId < s.nextProjectId) :
    (s.deleteProject projectId).store.Absent projectId := by
  obtain ⟨hsymbolChunks, hobjectChunks, -⟩ := chunks_deleteProject s projectId
  refine ⟨ne_of_eq_filter (projects_deleteProject s projectId), ne_of_eq_filter hsymbolChunks,
    ne_of_eq_filter hobjectChunks, ?_⟩
  unfold deleteProject
  cases s.findProject projectId with
  | none => exact hnext
  | some p => exact hnext

end Store

/-! ### Runs -/

section Runs

variable {hashBytes : Bytes → Text} {guard : UploadState → Request → Bool}
  {canaryRootHash : Bytes} (hcanary : canaryRootHash ≠ canaryHash) {st : UploadState}
  (hrun : Relation.ReflTransGen (UploadStep hashBytes guard) (.initial canaryRootHash) st)
  {projectId : ℤ} (hpos : 0 < projectId)

include hcanary hrun

include hpos in
/-- **In every store that requests lead to, a deletion removes the project and nothing else.** -/
theorem removed_of_run (hids : st.store.nextProjectId ≤ 2 ^ 31) (hlt : projectId < 2 ^ 31) :
    st.store.Removed (st.serve hashBytes (.deleteProject projectId)).store projectId := by
  have hisolated := isolated_of_run hcanary hrun
  exact hisolated.removed hids hpos hlt

/-- **After a deletion nothing of the project comes back**, whatever is uploaded then. -/
theorem gone_of_run (hnext : projectId < st.store.nextProjectId) {st' : UploadState}
    (hrest : Relation.ReflTransGen (UploadStep hashBytes guard)
      (st.serve hashBytes (.deleteProject projectId)) st') : st'.store.Gone projectId := by
  have hisolated := isolated_of_run hcanary hrun
  have hkept : st'.store.Isolated ∧ st'.store.Absent projectId := by
    refine Runs.invariant_of_run
      (I := fun st : UploadState => st.store.Isolated ∧ st.store.Absent projectId) ?_ hrest
      ⟨hisolated.deleteProject projectId, Store.absent_deleteProject hnext⟩
    rintro st _ ⟨hisolated, habsent⟩ ⟨req, -, -, rfl⟩
    unfold UploadState.serve
    cases hhandle : st.store.handle hashBytes req with
    | error e => exact ⟨hisolated, habsent⟩
    | ok c => exact ⟨hisolated.handle hhandle, habsent.handle hhandle⟩
  exact hkept.1.gone hkept.2.projects hkept.2.symbolChunks hkept.2.objectChunks

end Runs

/-- The first of two projects is deleted, and the second keeps its instance. -/
theorem removed_twoUploads : ∃ st : UploadState,
    Relation.ReflTransGen (UploadStep (fun _ => emptyDigest) fun _ _ => true) (.initial [0]) st ∧
      st.store.symbolInstances.map (·.layer) = [4, 3] ∧
        st.store.Removed (st.serve (fun _ => emptyDigest) (.deleteProject 1)).store 1 := by
  obtain ⟨st, hrun, hids, hinstances, -⟩ := exists_run_twoUploads
  exact ⟨st, hrun, hinstances,
    removed_of_run (by decide) hrun (by decide) hids (by decide)⟩

/-- A project of the name that was deleted gets another id. -/
theorem gone_twoUploads : ∃ st st' : UploadState,
    Relation.ReflTransGen (UploadStep (fun _ => emptyDigest) fun _ _ => true) (.initial [0]) st ∧
      Relation.ReflTransGen (UploadStep (fun _ => emptyDigest) fun _ _ => true)
        (st.serve (fun _ => emptyDigest) (.deleteProject 1)) st' ∧
        st.store.projects.map (·.id) = [-999999, 1, 2] ∧
          st'.store.projects.map (·.id) = [-999999, 2, 3] ∧ st'.store.Gone 1 := by
  obtain ⟨st, hst, hobs⟩ := Option.bind_eq_some_iff.mp (show
    ((serveAll (fun _ => emptyDigest) (fun _ _ => true) (.initial [0]) twoUploads).bind fun st =>
      (serveAll (fun _ => emptyDigest) (fun _ _ => true)
        (st.serve (fun _ => emptyDigest) (.deleteProject 1))
        [.uploadIndex ⟨['p'], ['/'], [], []⟩ (some 1) (some 1) [3]]).map fun st' =>
          decide (st.store.projects.map (·.id) = [-999999, 1, 2] ∧
            1 < st.store.nextProjectId ∧
              st'.store.projects.map (·.id) = [-999999, 2, 3])) = some true
    by decide +kernel)
  obtain ⟨st', hst', hobs⟩ := Option.map_eq_some_iff.mp hobs
  obtain ⟨hbefore, hnext, hafter⟩ := of_decide_eq_true hobs
  have hrun := run_of_serveAll hst
  have hrest := run_of_serveAll hst'
  exact ⟨st, st', hrun, hrest, hbefore, hafter, gone_of_run (by decide) hrun hnext hrest⟩

end Askl
