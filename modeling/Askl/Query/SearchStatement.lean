import Askl.Query.SearchCache

/-!
# Statements that search

A statement calls for the layers of one root after another: the base, the supplement of the
root's chain, and the atoms of its content layers.  The tasks of the roots run on one cache, and
complete in any order.

## Main definitions

* `LayerTable.Grows` — a table that calls lead to.
* `LayerTable.PartOf` — the parts of a root's layers in a statement.
* `LayerTable.Activates` — an activation of a part of a root's layers.

## Main results

* `LayerTable.rootTask_served`, `LayerTable.runTasks_served` — what the task of a root and the
  tasks of roots activate.
* `LayerTable.withPartitionedLayers_served` — **a statement activates parts of its roots' layers,
  and every root's base.**
* `searchStatement_of_run` — **a statement that searches reads what the parts of its roots hold.**
-/

namespace Askl

open Relation

namespace LayerTable

variable {ε : Type} {T T' T'' : LayerTable} {Good : PopulatedLayer → Prop}

/-! ### Calls -/

/-- The table has a layer with a key, an id and a mark. -/
def Serves (T : LayerTable) (hash : Hash32) (layerId : ℤ) (truncated : Bool) : Prop :=
  ∃ l ∈ T.layers, l.hash = hash ∧ l.id = layerId ∧ l.truncated = truncated

theorem Serves.mono {hash : Hash32} {layerId : ℤ} {truncated : Bool}
    (h : T.Serves hash layerId truncated) (hsubset : T.layers ⊆ T'.layers) :
    T'.Serves hash layerId truncated := by
  obtain ⟨l, hl, hrest⟩ := h
  exact ⟨l, hsubset hl, hrest⟩

/-- A table that calls lead to: it is sound and has all the layers. -/
structure Grows (Good : PopulatedLayer → Prop) (T T' : LayerTable) : Prop where
  sound : T'.Sound Good
  subset : T.layers ⊆ T'.layers

theorem Grows.trans (h : Grows Good T T') (h' : Grows Good T' T'') : Grows Good T T'' where
  sound := h'.sound
  subset := List.Subset.trans h.subset h'.subset

/-- What a call comes to. -/
theorem withEphLayer_served (hT : T.Sound Good) {hash : Hash32}
    {body : LayerPopulate LayerTxn ε} (hbody : MakesGood Good hash body)
    {r : Except ε LayerOutcome} (h : T.withEphLayer hash body = (r, T')) :
    Grows Good T T' ∧ ∀ o, r = .ok o → T'.Serves hash o.layerId o.truncated := by
  have hsound := hT.withEphLayer hbody
  have hsubset := subset_withEphLayer T hash body
  have hlayer : ∀ o, (T.withEphLayer hash body).1 = .ok o → _ := fun o => layer_of_ok
  rw [h] at hsound hsubset hlayer
  exact ⟨⟨hsound, hsubset⟩, hlayer⟩

/-- What calls come to. -/
theorem withEphLayers_served {calls : List (Hash32 × LayerPopulate LayerTxn ε)}
    (hT : T.Sound Good) (hcalls : ∀ c ∈ calls, MakesGood Good c.1 c.2)
    {r : Except ε (List LayerOutcome)} (h : T.withEphLayers calls = (r, T')) :
    Grows Good T T' ∧ ∀ os, r = .ok os → ∀ o ∈ os, ∃ c ∈ calls,
      T'.Serves c.1 o.layerId o.truncated := by
  induction calls generalizing T r T' with
  | nil =>
    obtain ⟨rfl, rfl⟩ := Prod.mk.inj h
    refine ⟨⟨hT, List.Subset.refl _⟩, fun os hos o ho => ?_⟩
    obtain rfl := Except.ok.inj hos
    cases ho
  | cons c calls ih =>
    obtain ⟨hash, body⟩ := c
    rw [withEphLayers] at h
    cases hcall : T.withEphLayer hash body with
    | mk res T₁ =>
      obtain ⟨hgrows, hserved⟩ := withEphLayer_served hT (hcalls _ List.mem_cons_self) hcall
      simp only [hcall] at h
      cases res with
      | error e =>
        obtain ⟨rfl, rfl⟩ := Prod.mk.inj h
        exact ⟨hgrows, fun os hos => by cases hos⟩
      | ok o =>
        cases hrest : T₁.withEphLayers calls with
        | mk res₂ T₂ =>
          obtain ⟨hgrows₂, hserved₂⟩ :=
            ih hgrows.sound (fun c hc => hcalls c (.tail _ hc)) hrest
          simp only [hrest] at h
          cases res₂ with
          | error e =>
            obtain ⟨rfl, rfl⟩ := Prod.mk.inj h
            exact ⟨hgrows.trans hgrows₂, fun os hos => by cases hos⟩
          | ok os =>
            obtain ⟨rfl, rfl⟩ := Prod.mk.inj h
            refine ⟨hgrows.trans hgrows₂, fun os' hos o' ho => ?_⟩
            obtain rfl := Except.ok.inj hos
            rcases List.mem_cons.mp ho with rfl | ho
            · exact ⟨_, List.mem_cons_self, (hserved _ rfl).mono hgrows₂.subset⟩
            · obtain ⟨c, hc, hserves⟩ := hserved₂ os rfl o' ho
              exact ⟨c, .tail _ hc, hserves⟩

/-! ### The task of a root -/

section Tasks

variable {sha256 : Bytes → Hash32} {rootHash : ℤ → Bytes} {content : ℤ → List ℤ}
  {eph : EphContext} {spec : PopulateSpec LayerTxn ε} {root : RootLayer}

/-- The parts of a root's layers in a statement. -/
def PartOf (content : ℤ → List ℤ) (eph : EphContext) (root : RootLayer) : LayerPart → Prop
  | .base => True
  | .supplement parentId => parentId ∈ eph.chainLast root.id
  | .perLayer layerId => layerId ∈ content root.projectId

/-- An activation of a part of a root's layers. -/
structure Activates (sha256 : Bytes → Hash32) (rootHash : ℤ → Bytes)
    (spec : PopulateSpec LayerTxn ε) (T : LayerTable) (root : RootLayer) (part : LayerPart)
    (a : LayerActivation) : Prop where
  rootId : a.rootId = root.id
  serves : T.Serves (layerHash sha256 rootHash spec root part) a.layerId a.truncated

theorem Activates.mono {part : LayerPart} {a : LayerActivation}
    (h : Activates sha256 rootHash spec T root part a) (hsubset : T.layers ⊆ T'.layers) :
    Activates sha256 rootHash spec T' root part a :=
  ⟨h.rootId, h.serves.mono hsubset⟩

variable (content) in
/-- The call for a supplement is for a part. -/
theorem part_of_mem_supplementCalls {base : BaseLayerRef}
    {c : Hash32 × LayerPopulate LayerTxn ε}
    (hc : c ∈ supplementCalls sha256 rootHash eph spec root base) :
    ∃ part, PartOf content eph root part ∧ c.1 = layerHash sha256 rootHash spec root part ∧
      spec.Populates root part c.2 := by
  obtain ⟨parent, hparent, rfl⟩ := List.mem_map.mp hc
  exact ⟨.supplement parent, Option.mem_toList.mp hparent, rfl, .supplement parent base⟩

variable (eph) in
/-- The calls for atoms are for parts. -/
theorem part_of_mem_atomCalls {base : BaseLayerRef} {c : Hash32 × LayerPopulate LayerTxn ε}
    (hc : c ∈ atomCalls sha256 rootHash content spec root base) :
    ∃ part, PartOf content eph root part ∧ c.1 = layerHash sha256 rootHash spec root part ∧
      spec.Populates root part c.2 := by
  obtain ⟨populate, hpopulate, hc⟩ := List.mem_flatMap.mp hc
  obtain ⟨l, hl, rfl⟩ := List.mem_map.mp hc
  exact ⟨.perLayer l, hl, rfl, .perLayer (Option.mem_toList.mp hpopulate) l base⟩

/-- **What the task of a root activates**: parts of its layers, and the base. -/
theorem rootTask_served (hT : T.Sound Good)
    (hgood : ∀ part body, PartOf content eph root part → spec.Populates root part body →
      MakesGood Good (layerHash sha256 rootHash spec root part) body)
    {r : Except ε (List LayerActivation)}
    (h : T.rootTask sha256 rootHash content eph spec root = (r, T')) :
    Grows Good T T' ∧ ∀ as, r = .ok as →
      (∀ a ∈ as, ∃ part, PartOf content eph root part ∧
        Activates sha256 rootHash spec T' root part a) ∧
      ∃ a ∈ as, Activates sha256 rootHash spec T' root .base a := by
  have hcalls : ∀ c : Hash32 × LayerPopulate LayerTxn ε, (∃ part, PartOf content eph root part ∧
      c.1 = layerHash sha256 rootHash spec root part ∧ spec.Populates root part c.2) →
        MakesGood Good c.1 c.2 := by
    rintro c ⟨part, hpart, hhash, hpopulates⟩
    rw [hhash]
    exact hgood part _ hpart hpopulates
  rw [rootTask] at h
  cases hbase : T.withEphLayer (layerHash sha256 rootHash spec root .base)
      (spec.basePopulate root) with
  | mk res T₁ =>
    obtain ⟨hgrows, hserved⟩ := withEphLayer_served hT (hgood .base _ trivial .base) hbase
    simp only [hbase] at h
    cases res with
    | error e =>
      obtain ⟨rfl, rfl⟩ := Prod.mk.inj h
      exact ⟨hgrows, fun as has => by cases has⟩
    | ok base =>
      dsimp only at h
      cases hsupplement : T₁.withEphLayers (supplementCalls sha256 rootHash eph spec root
          ⟨base.layerId, layerHash sha256 rootHash spec root .base⟩) with
      | mk res₂ T₂ =>
        obtain ⟨hgrows₂, hserved₂⟩ := withEphLayers_served hgrows.sound
          (fun c hc => hcalls c (part_of_mem_supplementCalls content hc)) hsupplement
        simp only [hsupplement] at h
        cases res₂ with
        | error e =>
          obtain ⟨rfl, rfl⟩ := Prod.mk.inj h
          exact ⟨hgrows.trans hgrows₂, fun as has => by cases has⟩
        | ok supplement =>
          dsimp only at h
          cases hatoms : T₂.withEphLayers (atomCalls sha256 rootHash content spec root
              ⟨base.layerId, layerHash sha256 rootHash spec root .base⟩) with
          | mk res₃ T₃ =>
            obtain ⟨hgrows₃, hserved₃⟩ := withEphLayers_served hgrows₂.sound
              (fun c hc => hcalls c (part_of_mem_atomCalls eph hc)) hatoms
            simp only [hatoms] at h
            have hall := (hgrows.trans hgrows₂).trans hgrows₃
            cases res₃ with
            | error e =>
              obtain ⟨rfl, rfl⟩ := Prod.mk.inj h
              exact ⟨hall, fun as has => by cases has⟩
            | ok atoms =>
              obtain ⟨rfl, rfl⟩ := Prod.mk.inj h
              refine ⟨hall, fun as has => ?_⟩
              obtain rfl := Except.ok.inj has
              have hfirst : T₃.Serves (layerHash sha256 rootHash spec root .base) base.layerId
                  base.truncated := (hserved _ rfl).mono (hgrows₂.trans hgrows₃).subset
              refine ⟨fun a ha => ?_, ⟨root.id, base.layerId, base.truncated⟩, ?_, rfl, hfirst⟩
              · obtain ⟨o, ho, rfl⟩ := List.mem_map.mp ha
                rcases List.mem_cons.mp ho with rfl | ho
                · exact ⟨.base, trivial, rfl, hfirst⟩
                rcases List.mem_append.mp ho with ho | ho
                · obtain ⟨c, hc, hserves⟩ := hserved₃ _ rfl o ho
                  obtain ⟨part, hpart, hhash, -⟩ := part_of_mem_atomCalls eph hc
                  exact ⟨part, hpart, rfl, hhash ▸ hserves⟩
                · obtain ⟨c, hc, hserves⟩ := hserved₂ _ rfl o ho
                  obtain ⟨part, hpart, hhash, -⟩ := part_of_mem_supplementCalls content hc
                  exact ⟨part, hpart, rfl, hhash ▸ hserves.mono hgrows₃.subset⟩
              · exact List.mem_map.mpr ⟨base, List.mem_cons_self, rfl⟩

/-! ### The tasks of roots -/

/-- **What the tasks of roots activate**, if none fails. -/
theorem runTasks_served {completed : List RootLayer} (hT : T.Sound Good)
    (hgood : ∀ root ∈ completed, ∀ part body, PartOf content eph root part →
      spec.Populates root part body →
        MakesGood Good (layerHash sha256 rootHash spec root part) body) :
    Grows Good T (T.runTasks sha256 rootHash content eph spec completed).2 ∧
      ∀ groups, (T.runTasks sha256 rootHash content eph spec completed).1.mapM id = .ok groups →
        (∀ a ∈ groups.flatten, ∃ root ∈ completed, ∃ part, PartOf content eph root part ∧
          Activates sha256 rootHash spec
            (T.runTasks sha256 rootHash content eph spec completed).2 root part a) ∧
        ∀ root ∈ completed, ∃ a ∈ groups.flatten, Activates sha256 rootHash spec
          (T.runTasks sha256 rootHash content eph spec completed).2 root .base a := by
  induction completed generalizing T with
  | nil =>
    refine ⟨⟨hT, List.Subset.refl _⟩, fun groups hgroups => ?_⟩
    obtain rfl := Fallible.pure_eq_ok.mp hgroups
    exact ⟨List.forall_mem_nil _, List.forall_mem_nil _⟩
  | cons root roots ih =>
    obtain ⟨hgrows, hserved⟩ := rootTask_served (r := (T.rootTask sha256 rootHash content eph spec
      root).1) hT (hgood root List.mem_cons_self) rfl
    obtain ⟨hgrows₂, hserved₂⟩ := ih hgrows.sound fun root' hroot' => hgood root' (.tail _ hroot')
    refine ⟨hgrows.trans hgrows₂, fun groups hgroups => ?_⟩
    cases Fallible.mapM_eq_ok.mp hgroups with
    | @cons _ group _ groups hfirst hrest =>
      obtain ⟨hparts, a₀, ha₀, hbase₀⟩ := hserved group hfirst
      obtain ⟨hparts₂, hbase₂⟩ := hserved₂ groups (Fallible.mapM_eq_ok.mpr hrest)
      rw [List.flatten_cons]
      constructor
      · intro a ha
        rcases List.mem_append.mp ha with ha | ha
        · obtain ⟨part, hpart, hactivates⟩ := hparts a ha
          exact ⟨root, List.mem_cons_self, part, hpart, hactivates.mono hgrows₂.subset⟩
        · obtain ⟨root', hroot', hrest⟩ := hparts₂ a ha
          exact ⟨root', .tail _ hroot', hrest⟩
      · intro root' hroot'
        rcases List.mem_cons.mp hroot' with rfl | hroot'
        · exact ⟨a₀, List.mem_append_left _ ha₀, hbase₀.mono hgrows₂.subset⟩
        · obtain ⟨a, ha, hactivates⟩ := hbase₂ root' hroot'
          exact ⟨a, List.mem_append_right _ ha, hactivates⟩

/-- **A statement activates parts of its roots' layers, and every root's base.** -/
theorem withPartitionedLayers_served {completed : List RootLayer} (hT : T.Sound Good)
    (hgood : ∀ root ∈ completed, ∀ part body, PartOf content eph root part →
      spec.Populates root part body →
        MakesGood Good (layerHash sha256 rootHash spec root part) body)
    {as : List LayerActivation}
    (h : T.withPartitionedLayers sha256 rootHash content eph spec completed = (.ok as, T')) :
    T'.Sound Good ∧
      (∀ a ∈ as, ∃ root ∈ completed, ∃ part, PartOf content eph root part ∧
        Activates sha256 rootHash spec T' root part a) ∧
      ∀ root ∈ completed, ∃ a ∈ as, Activates sha256 rootHash spec T' root .base a := by
  obtain ⟨hgrows, hserved⟩ := runTasks_served hT hgood
  rw [withPartitionedLayers] at h
  obtain ⟨hok, rfl⟩ := Prod.mk.inj h
  cases hgroups : (T.runTasks sha256 rootHash content eph spec completed).1.mapM id with
  | error e =>
    rw [hgroups] at hok
    cases hok
  | ok groups =>
    rw [hgroups] at hok
    obtain rfl := Except.ok.inj hok
    obtain ⟨hparts, hbase⟩ := hserved groups hgroups
    -- the groups are put in the order of their roots
    have hmem : ∀ a, a ∈ (groups.insertionSort fun g g' =>
        LayerService.groupRoot g ≤ LayerService.groupRoot g').flatten ↔ a ∈ groups.flatten := by
      intro a
      rw [List.mem_flatten, List.mem_flatten]
      exact exists_congr fun g => and_congr_left fun _ => List.mem_insertionSort _
    refine ⟨hgrows.sound, fun a ha => hparts a ((hmem a).mp ha), fun root hroot => ?_⟩
    obtain ⟨a, ha, hactivates⟩ := hbase root hroot
    exact ⟨a, (hmem a).mpr ha, hactivates⟩

end Tasks

end LayerTable

/-! ### A statement that searches -/

section Search

variable {D : StreamDigest} {db : ScanDatabase} {sel : SearchSelector} {filter : CompositeFilter}
  {root : RootLayer} {part : LayerPart} {T T' : LayerTable}

/-- A layer that is activated is read as its part says. -/
theorem partHolds_of_activates (hT : T.Sound (SearchLayer D db))
    (hhashable : SearchHashable sel filter) (hroot : root ∈ db.store.loadRootLayers)
    (hhashes : D.Hashes (searchStream sel filter) (searchKey D db sel filter root part))
    {a : LayerActivation} (h : LayerTable.Activates D.sha256 db.store.rootHash
      (searchSpec db sel filter D.sha256) T root part a) :
    PartHolds db sel filter root part a.truncated (T.rowsOf a.layerId) :=
  partHolds_of_layer hT hhashable hroot hhashes h.serves

/-- The rows of a part are of the symbol of the search in the root's project. -/
theorem symbol_of_partHolds {truncated : Bool} {rows : List SelectedRow}
    (h : PartHolds db sel filter root part truncated rows) {r : SelectedRow} (hr : r ∈ rows) :
    r.name = searchSymName sel.query ∧ r.projectId = root.projectId := by
  cases part with
  | base => exact SearchHolds.symbol h hr
  | supplement parentId =>
    obtain ⟨-, rfl⟩ := h
    cases hr
  | perLayer layerId => exact SearchHolds.symbol h hr

/-- **A statement that searches reads what the parts of its roots hold**: after any run of the
cache, whatever the order in which the tasks of the roots complete, if none fails, each layer that
is activated holds what its part says, every root's base is among them, and a row that is read is
of the symbol of the search in the project of a root. -/
theorem searchStatement_of_run (hfiled : db.store.Filed) {empty : LayerTable}
    (hempty : empty.layers = []) (hrun : ReflTransGen (SearchStep D db) empty T)
    (hhashable : SearchHashable sel filter) {content : ℤ → List ℤ} {eph : EphContext}
    {completed : List RootLayer} (hroots : completed ⊆ db.store.loadRootLayers)
    (hhashes : ∀ root ∈ completed, ∀ part, LayerTable.PartOf content eph root part →
      D.Hashes (searchStream sel filter) (searchKey D db sel filter root part))
    {as : List LayerActivation}
    (h : T.withPartitionedLayers D.sha256 db.store.rootHash content eph
      (searchSpec db sel filter D.sha256) completed = (.ok as, T')) :
    (∀ a ∈ as, ∃ root ∈ completed, a.rootId = root.id ∧
      ∃ part, LayerTable.PartOf content eph root part ∧
        PartHolds db sel filter root part a.truncated (T'.rowsOf a.layerId)) ∧
    (∀ root ∈ completed, ∃ a ∈ as, a.rootId = root.id ∧
      PartHolds db sel filter root .base a.truncated (T'.rowsOf a.layerId)) ∧
    ∀ r ∈ T'.selectedRows as, r.name = searchSymName sel.query ∧
      ∃ root ∈ completed, r.projectId = root.projectId := by
  obtain ⟨hsound, hparts, hbase⟩ := LayerTable.withPartitionedLayers_served
    (searchSound_of_run hfiled hempty hrun) (fun root hroot part body hpart hpopulates =>
      makesGood_search hfiled hhashable (hroots hroot) hpopulates (hhashes root hroot part hpart)) h
  have hholds : ∀ a ∈ as, ∃ root ∈ completed, a.rootId = root.id ∧
      ∃ part, LayerTable.PartOf content eph root part ∧
        PartHolds db sel filter root part a.truncated (T'.rowsOf a.layerId) := by
    intro a ha
    obtain ⟨root, hroot, part, hpart, hactivates⟩ := hparts a ha
    exact ⟨root, hroot, hactivates.rootId, part, hpart,
      partHolds_of_activates hsound hhashable (hroots hroot) (hhashes root hroot part hpart)
        hactivates⟩
  refine ⟨hholds, fun root hroot => ?_, fun r hr => ?_⟩
  · obtain ⟨a, ha, hactivates⟩ := hbase root hroot
    exact ⟨a, ha, hactivates.rootId, partHolds_of_activates hsound hhashable (hroots hroot)
      (hhashes root hroot .base trivial) hactivates⟩
  · obtain ⟨a, ha, hr⟩ := List.mem_flatMap.mp hr
    obtain ⟨root, hroot, -, part, -, hpart⟩ := hholds a ha
    obtain ⟨hname, hproject⟩ := symbol_of_partHolds hpart hr
    exact ⟨hname, root, hroot, hproject⟩

/-- The cache after a search of both projects, one of which is cached. -/
def statementTable : LayerTable :=
  (searchedTable.withPartitionedLayers wholeLineDigest.sha256 twoProjectsScan.store.rootHash
    (fun _ => []) bothRoots
    (searchSpec twoProjectsScan wholeLine (.and []) wholeLineDigest.sha256)
    [⟨4, 2⟩, ⟨3, 1⟩]).2

/-- The second project's layer is found, and the first's is made. -/
theorem searchStatement_of_run_wholeLine :
    (∀ a ∈ [(⟨3, -2, false⟩ : LayerActivation), ⟨4, -1, false⟩],
      ∃ root ∈ [(⟨4, 2⟩ : RootLayer), ⟨3, 1⟩], a.rootId = root.id ∧
        ∃ part, LayerTable.PartOf (fun _ => []) bothRoots root part ∧
          PartHolds twoProjectsScan wholeLine (.and []) root part a.truncated
            (statementTable.rowsOf a.layerId)) ∧
    (∀ root ∈ [(⟨4, 2⟩ : RootLayer), ⟨3, 1⟩],
      ∃ a ∈ [(⟨3, -2, false⟩ : LayerActivation), ⟨4, -1, false⟩], a.rootId = root.id ∧
        PartHolds twoProjectsScan wholeLine (.and []) root .base a.truncated
          (statementTable.rowsOf a.layerId)) ∧
    ∀ r ∈ statementTable.selectedRows [⟨3, -2, false⟩, ⟨4, -1, false⟩],
      r.name = searchSymName wholeLine.query ∧
        ∃ root ∈ [(⟨4, 2⟩ : RootLayer), ⟨3, 1⟩], r.projectId = root.projectId := by
  have hempty : coldTable.layers = [] := rfl
  have hfiled : twoProjectsScan.store.Filed := filed_twoProjects
  have hroots : [(⟨4, 2⟩ : RootLayer), ⟨3, 1⟩] ⊆ twoProjectsScan.store.loadRootLayers := by decide
  have hboth : ∀ root ∈ [(⟨4, 2⟩ : RootLayer), ⟨3, 1⟩], root ∈ bothRoots.roots := by decide
  have hchain : ∀ root ∈ [(⟨4, 2⟩ : RootLayer), ⟨3, 1⟩],
      bothRoots.chainLast root.id = none := by decide
  have hhashes : ∀ root ∈ [(⟨4, 2⟩ : RootLayer), ⟨3, 1⟩], ∀ part,
      LayerTable.PartOf (fun _ => []) bothRoots root part →
        wholeLineDigest.Hashes (searchStream wholeLine (.and []))
          (searchKey wholeLineDigest twoProjectsScan wholeLine (.and []) root part) := by
    intro root hroot part hpart
    cases part with
    | base => exact hashes_wholeLine (hboth root hroot)
    | supplement parentId =>
      have hparent : parentId ∈ bothRoots.chainLast root.id := hpart
      rw [hchain root hroot] at hparent
      cases hparent
    | perLayer layerId =>
      have hlayer : layerId ∈ ([] : List ℤ) := hpart
      cases hlayer
  have hok : (searchedTable.withPartitionedLayers wholeLineDigest.sha256
      twoProjectsScan.store.rootHash (fun _ => []) bothRoots
      (searchSpec twoProjectsScan wholeLine (.and []) wholeLineDigest.sha256)
      [⟨4, 2⟩, ⟨3, 1⟩]).1 = .ok [⟨3, -2, false⟩, ⟨4, -1, false⟩] := by
    decide +kernel
  have hcall : searchedTable.withPartitionedLayers wholeLineDigest.sha256
      twoProjectsScan.store.rootHash (fun _ => []) bothRoots
      (searchSpec twoProjectsScan wholeLine (.and []) wholeLineDigest.sha256)
      [⟨4, 2⟩, ⟨3, 1⟩] = (.ok [⟨3, -2, false⟩, ⟨4, -1, false⟩], statementTable) := by
    rw [statementTable, ← hok]
  exact searchStatement_of_run hfiled hempty run_searchedTable searchHashable_wholeLine hroots
    hhashes hcall

end Search

end Askl
