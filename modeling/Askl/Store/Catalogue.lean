import Askl.Library.Deliveries
import Askl.Store.Constraints

/-!
# The rows of a project, up to ids

Object chunks refer to objects by paths, the tables to objects by generated ids.  Here the
rows of a project are read by path: the object at each path, and the contents, instances and
references by the columns of their unique indexes.  Under the constraints of the tables this
is all there is to the rows, and a chunk acts on it in a simple way: the last object at a path
stays, and the first content, instance or reference of a key.

## Main definitions

* `RowKey`, `Store.objectAt`, `Store.columnAt` — the rows by path.
* `ChunkRows`, `chunkWrites` — what a chunk inserts, apart from ids.

## Main results

* `Store.Entered.upsert`, `Store.InstancesEntered.insert`, `Store.RefsEntered.insert` — what one
  row leaves in the catalogue.
* `Store.exists_doUploadObjects` — **what an accepted chunk leaves in it.**
* `Store.accepts_of_doUploadObjects` — only accepted chunks commit.
-/

namespace Askl

/-- The key of a content, or of an instance or reference in the object at a path. -/
inductive RowKey where
  | content (contentHash : Text)
  | inst (symbol : ℤ) (path : Text) (offsetRange : Int4range) (layer : ℤ)
  | ref (toSymbol : ℤ) (path : Text) (fromOffsetRange : Int4range) (layer : ℤ)
  deriving DecidableEq, Repr

/-- What a row has beside its key: the content, the type of the instance, nothing. -/
abbrev RowKey.Column : RowKey → Type
  | .content _ => Bytes
  | .inst .. => ℤ
  | .ref .. => Unit

namespace Store

variable (projectId : ℤ)

/-- The row of the object at a path. -/
def objectAt (s : Store) (path : Text) : Option NewObject :=
  (s.findObject projectId path).map (·.row)

/-- The column of the row of a key. -/
def columnAt (s : Store) : (k : RowKey) → Option k.Column
  | .content contentHash => s.findContent contentHash
  | .inst symbol path offsetRange layer =>
    (s.findObject projectId path).bind fun o =>
      (s.findInstance symbol o.id offsetRange layer).map (·.instanceType)
  | .ref toSymbol path fromOffsetRange layer =>
    (s.findObject projectId path).bind fun o =>
      (s.findRef toSymbol o.id fromOffsetRange layer).map fun _ => ()

end Store

/-! ### What a chunk inserts -/

/-- The path at which an object is stored. -/
def UploadObject.path (object : UploadObject) : Text :=
  normalizeFullPath (trim object.filesystemPath)

/-- What is inserted for an object of a chunk: a row of the project, at the object's path, with
the content the object brings along and its digest, or without a content and with the hash the
object names. -/
structure InsertOf (hashBytes : Bytes → Text) (projectId rootLayerId : ℤ) (object : UploadObject)
    (e : ObjectInsert) : Prop where
  localId : e.localId = object.localId
  project : e.row.projectId = projectId
  layer : e.row.layer = rootLayerId
  path : e.row.filesystemPath = object.path
  content : (∃ content, e.content = some content ∧ e.row.contentHash = hashBytes content) ∨
    e.content = none ∧ e.row.contentHash ≠ []

theorem buildObject_ok {hashBytes : Bytes → Text} {projectId rootLayerId : ℤ}
    {object : UploadObject} {e : ObjectInsert}
    (h : buildObject hashBytes projectId rootLayerId object = .ok e) :
    InsertOf hashBytes projectId rootLayerId object e := by
  unfold buildObject at h
  dsimp only at h
  split at h
  · cases h
  split at h
  · cases h
  obtain ⟨⟨content, contentHash⟩, hcontent, h⟩ := Fallible.bind_eq_ok.mp h
  obtain rfl := Except.ok.inj h
  refine ⟨rfl, rfl, rfl, rfl, ?_⟩
  unfold objectContent at hcontent
  dsimp only at hcontent
  split at hcontent
  · next hnamed =>
    obtain ⟨rfl, rfl⟩ := Prod.mk.inj (Except.ok.inj hcontent)
    rw [Bool.and_eq_true, Bool.not_eq_true', List.isEmpty_eq_false_iff] at hnamed
    exact Or.inr ⟨rfl, hnamed.1⟩
  · split at hcontent
    · cases hcontent
    · obtain ⟨rfl, rfl⟩ := Prod.mk.inj (Except.ok.inj hcontent)
      exact Or.inl ⟨_, rfl, rfl⟩

/-- One turn of the loop: a local id that is new, its object, and the objects after it. -/
theorem buildObjectsFrom_cons_ok {hashBytes : Bytes → Text} {projectId rootLayerId : ℤ}
    {seen : List ℤ} {object : UploadObject} {objects : List UploadObject}
    {inserts : List ObjectInsert}
    (h : buildObjectsFrom hashBytes projectId rootLayerId seen (object :: objects) =
      .ok inserts) :
    object.localId ∉ seen ∧ ∃ e others, InsertOf hashBytes projectId rootLayerId object e ∧
      buildObjectsFrom hashBytes projectId rootLayerId (object.localId :: seen) objects =
        .ok others ∧ inserts = e :: others := by
  unfold buildObjectsFrom at h
  split at h
  · cases h
  · next hseen =>
    obtain ⟨e, he, h⟩ := Fallible.bind_eq_ok.mp h
    obtain ⟨others, hothers, h⟩ := Fallible.bind_eq_ok.mp h
    obtain rfl := Except.ok.inj h
    exact ⟨by simpa using hseen, e, others, buildObject_ok he, hothers, rfl⟩

/-- Whatever is inserted is inserted for one of the objects. -/
theorem insertOf_of_mem {hashBytes : Bytes → Text} {projectId rootLayerId : ℤ} {seen : List ℤ}
    {objects : List UploadObject} {inserts : List ObjectInsert}
    (h : buildObjectsFrom hashBytes projectId rootLayerId seen objects = .ok inserts) :
    ∀ e ∈ inserts, ∃ object ∈ objects, InsertOf hashBytes projectId rootLayerId object e := by
  induction objects generalizing seen inserts with
  | nil =>
    obtain rfl := Except.ok.inj h
    exact List.forall_mem_nil _
  | cons object objects ih =>
    obtain ⟨-, e, others, hentry, hothers, rfl⟩ := buildObjectsFrom_cons_ok h
    refine List.forall_mem_cons.mpr ⟨⟨object, List.mem_cons_self, hentry⟩, fun e' he' => ?_⟩
    obtain ⟨object', hobject', hentry'⟩ := ih hothers e' he'
    exact ⟨object', List.mem_cons_of_mem _ hobject', hentry'⟩

/-- The rows that objects carry, each with the path of its object. -/
def placed {α β : Type} (rowsOf : UploadObject → List α) (build : α → Except UploadError β) :
    List UploadObject → Except UploadError (List (Text × β))
  | [] => pure []
  | object :: objects => do
    let rows ← (rowsOf object).mapM build
    let others ← placed rowsOf build objects
    pure (rows.map (fun row => (object.path, row)) ++ others)

/-- The rows of a chunk: its objects, its instances and its references, where the path of an
object stands for its id. -/
structure ChunkRows where
  objects : List ObjectInsert
  instances : List (Text × NewSymbolInstance)
  refs : List (Text × NewSymbolRef)
  deriving DecidableEq, Repr

/-- The rows of a chunk, if all of them can be built. -/
def chunkRows (hashBytes : Bytes → Text) (projectId rootLayerId : ℤ) (upload : UploadProject) :
    Except UploadError ChunkRows := do
  let inserts ← buildObjects hashBytes projectId rootLayerId upload.objects
  let instances ← placed (·.symbolInstances) (buildSymbolInstance projectId rootLayerId 0)
    upload.objects
  let refs ← placed (·.refs) (buildSymbolRef projectId rootLayerId 0) upload.objects
  pure ⟨inserts, instances, refs⟩

/-- Whether the bounds of a range are in order and its symbol exists. -/
def Store.acceptsRange (s : Store) (symbol startOffset endOffset : ℤ) : Bool :=
  (Int4range.of startOffset endOffset).isSome && s.symbols.any (·.id == symbol)

/-- Whether the server accepts the rows of a chunk, apart from contents that are missing: no
statement meets a path twice, ranges are in order, and symbols exist. -/
def Store.acceptsRows (s : Store) (rows : ChunkRows) : Bool :=
  ((chunks maxInsertRows rows.objects).all fun statement =>
      decide (statement.map fun e => (e.row.projectId, e.row.filesystemPath)).Nodup) &&
    (rows.instances.all fun x => s.acceptsRange x.2.symbol x.2.startOffset x.2.endOffset) &&
    rows.refs.all fun x => s.acceptsRange x.2.toSymbol x.2.fromOffsetStart x.2.fromOffsetEnd

/-- The last object at a path. -/
def lastObject (entries : List ObjectInsert) (path : Text) : Option NewObject :=
  (entries.reverse.find? (·.row.filesystemPath == path)).map (·.row)

/-- The first content of a hash. -/
def firstContent (entries : List ObjectInsert) (contentHash : Text) : Option Bytes :=
  entries.findSome? fun e => if e.row.contentHash = contentHash then e.content else none

/-- The type of the first instance of a key. -/
def firstInstance (rows : List (Text × NewSymbolInstance)) (symbol : ℤ) (path : Text)
    (offsetRange : Int4range) (layer : ℤ) : Option ℤ :=
  rows.findSome? fun x =>
    if x.2.symbol = symbol ∧ x.1 = path ∧
        Int4range.of x.2.startOffset x.2.endOffset = some offsetRange ∧ x.2.layer = layer then
      some x.2.instanceType
    else none

/-- Whether there is a reference of a key. -/
def firstRef (rows : List (Text × NewSymbolRef)) (toSymbol : ℤ) (path : Text)
    (fromOffsetRange : Int4range) (layer : ℤ) : Option Unit :=
  rows.findSome? fun x =>
    if x.2.toSymbol = toSymbol ∧ x.1 = path ∧
        Int4range.of x.2.fromOffsetStart x.2.fromOffsetEnd = some fromOffsetRange ∧
        x.2.layer = layer then
      some ()
    else none

/-- What the rows of a chunk write: the last object at a path, the first column of a key, and
the hashes named without a content, which it needs. -/
def ChunkRows.writes (rows : ChunkRows) :
    Deliveries.Writes Text NewObject RowKey RowKey.Column where
  latest := lastObject rows.objects
  fill := fun
    | .content contentHash => firstContent rows.objects contentHash
    | .inst symbol path offsetRange layer =>
      firstInstance rows.instances symbol path offsetRange layer
    | .ref toSymbol path fromOffsetRange layer =>
      firstRef rows.refs toSymbol path fromOffsetRange layer
  needs := (rows.objects.filter fun e => e.content.isNone && !e.row.contentHash.isEmpty).map
    fun e => .content e.row.contentHash

/-- What an object chunk writes, unless it is refused whatever the contents and objects
there are. -/
def chunkWrites (hashBytes : Bytes → Text) (s : Store) (projectId : ℤ) (upload : UploadProject) :
    Option (Deliveries.Writes Text NewObject RowKey RowKey.Column) :=
  if !upload.symbols.isEmpty then none
  else match s.rootLayerOf projectId with
    | .error _ => none
    | .ok rootLayerId => match chunkRows hashBytes projectId rootLayerId upload with
      | .error _ => none
      | .ok rows => if s.acceptsRows rows then some rows.writes else none

namespace Store

variable {s : Store} {projectId : ℤ}

/-- What refers to objects by id finds the same object at a path: one that is overwritten keeps
its id, and nothing refers to the id of a new one. -/
theorem Upserted.bind_findObject_eq {γ : Type} {e : ObjectInsert} {s' : Store} {o : ObjectRow}
    (h : Upserted s e s' o) (find : ℤ → Option γ) (hunused : find s.nextObjectId = none)
    (path : Text) : ((s'.findObject projectId path).bind fun o => find o.id) =
      (s.findObject projectId path).bind fun o => find o.id := by
  by_cases hpath : (projectId, path) = (e.row.projectId, e.row.filesystemPath)
  · obtain ⟨rfl, rfl⟩ := Prod.mk.inj hpath
    rw [h.found]
    cases hfind : s.findObject e.row.projectId e.row.filesystemPath with
    | some old => rw [Option.bind_some, Option.bind_some, h.id_of_found old hfind]
    | none => rw [Option.bind_some, Option.bind_none, h.id_of_new hfind, hunused]
  · rw [h.others projectId path hpath]

/-- One object leaves the contents, instances and references by path as they are. -/
theorem Upserted.columnAt_eq {e : ObjectInsert} {s' : Store} {o : ObjectRow} (hs : s.Constrained)
    (h : Upserted s e s' o) (k : RowKey) : s'.columnAt projectId k = s.columnAt projectId k := by
  have hinstances : s'.symbolInstances = s.symbolInstances := by rw [h.rest]
  have hrefs : s'.symbolRefs = s.symbolRefs := by rw [h.rest]
  have hcontents : s'.contentStore = s.contentStore := by rw [h.rest]
  have hunused : ∀ id, (∃ o ∈ s.objects, o.id = id) → id ≠ s.nextObjectId := by
    rintro id ⟨o, ho, rfl⟩
    have hlt := hs.objectSequence o ho
    omega
  cases k with
  | content contentHash => simp only [columnAt, findContent, hcontents]
  | inst symbol path offsetRange layer =>
    have hfind : ∀ id, s'.findInstance symbol id offsetRange layer =
        s.findInstance symbol id offsetRange layer := by
      intro id
      rw [findInstance, hinstances, findInstance]
    simp only [columnAt, hfind]
    refine h.bind_findObject_eq (fun id =>
      (s.findInstance symbol id offsetRange layer).map (·.instanceType)) ?_ path
    rw [Option.map_eq_none_iff, findInstance, List.find?_eq_none]
    intro i hi hkey
    have hobject : i.objectId = s.nextObjectId := by
      simp only [Bool.and_eq_true, beq_iff_eq] at hkey
      exact hkey.1.1.2
    exact hunused i.objectId (hs.instanceObjects i hi) hobject
  | ref toSymbol path fromOffsetRange layer =>
    have hfind : ∀ id, s'.findRef toSymbol id fromOffsetRange layer =
        s.findRef toSymbol id fromOffsetRange layer := by
      intro id
      rw [findRef, hrefs, findRef]
    simp only [columnAt, hfind]
    refine h.bind_findObject_eq (fun id =>
      (s.findRef toSymbol id fromOffsetRange layer).map fun _ => ()) ?_ path
    rw [Option.map_eq_none_iff, findRef, List.find?_eq_none]
    intro r hr hkey
    have hobject : r.fromObject = s.nextObjectId := by
      simp only [Bool.and_eq_true, beq_iff_eq] at hkey
      exact hkey.1.1.2
    exact hunused r.fromObject (hs.refObjects r hr) hobject

/-- The rows of the content store that objects bring along. -/
def contentRows (entries : List ObjectInsert) : List NewContentStoreRow :=
  entries.filterMap fun e => e.content.map fun c => ⟨e.row.contentHash, c⟩

theorem findContent_insertContents (s : Store) (entries : List ObjectInsert) (contentHash : Text) :
    ((contentRows entries).foldl insertContent s).findContent contentHash =
      (s.findContent contentHash).or (firstContent entries contentHash) := by
  induction entries generalizing s with
  | nil => simp [contentRows, firstContent]
  | cons e entries ih =>
    unfold contentRows firstContent at ih ⊢
    rw [List.filterMap_cons, List.findSome?_cons]
    cases hcontent : e.content with
    | none =>
      rw [Option.map_none, ih, ite_self]
    | some c =>
      rw [Option.map_some, List.foldl_cons, ih, findContent_insertContent, Option.or_assoc]
      congr 1
      by_cases hhash : e.row.contentHash = contentHash
      · simp [hhash]
      · simp [hhash]

/-! ### The objects of a chunk -/

/-- What is there after some objects, and after the contents of some of them. -/
structure Entered (projectId : ℤ) (s : Store) (entries contents : List ObjectInsert)
    (s' : Store × ObjectMap) : Prop where
  constrained : s'.1.Constrained
  latest : ∀ path, s'.1.objectAt projectId path =
    (lastObject entries path).or (s.objectAt projectId path)
  content : ∀ contentHash, s'.1.findContent contentHash =
    (s.findContent contentHash).or (firstContent contents contentHash)
  column : ∀ k, (∀ contentHash, k ≠ .content contentHash) →
    s'.1.columnAt projectId k = s.columnAt projectId k
  map : ∀ e ∈ entries, ∃ o, s'.1.findObject projectId e.row.filesystemPath = some o ∧
    s'.2.lookup e.localId = some o.id
  symbols : s'.1.symbols = s.symbols

theorem Entered.nil (projectId : ℤ) (hs : s.Constrained) : Entered projectId s [] [] (s, []) where
  constrained := hs
  latest := fun _ => rfl
  content := fun _ => (Option.or_none).symm
  column := fun _ _ => rfl
  map := by simp
  symbols := rfl

theorem lastObject_concat (entries : List ObjectInsert) (e : ObjectInsert) (path : Text) :
    lastObject (entries ++ [e]) path =
      if e.row.filesystemPath = path then some e.row else lastObject entries path := by
  unfold lastObject
  rw [List.reverse_append, List.reverse_singleton, List.singleton_append, List.find?_cons]
  by_cases hpath : e.row.filesystemPath = path
  · simp [hpath]
  · have hne : (e.row.filesystemPath == path) = false := by simpa using hpath
    rw [hne, if_neg hpath]

/-- One more object. -/
theorem Entered.upsert {entries contents : List ObjectInsert} {s' : Store × ObjectMap}
    (h : Entered projectId s entries contents s') {e : ObjectInsert}
    (hproject : e.row.projectId = projectId) (hfresh : ∀ e' ∈ entries, e'.localId ≠ e.localId) :
    Entered projectId s (entries ++ [e]) contents (upsertObject s' e) := by
  obtain ⟨s₁, m⟩ := s'
  obtain ⟨s₂, o, hupsert, hup⟩ := exists_upserted h.constrained m e
  subst hproject
  rw [hupsert]
  have hpaths : ∀ path, path ≠ e.row.filesystemPath →
      s₂.findObject e.row.projectId path = s₁.findObject e.row.projectId path := by
    intro path hne
    refine hup.others e.row.projectId path fun heq => hne (Prod.mk.inj heq).2
  refine ⟨hup.constrained, fun path => ?_, fun contentHash => ?_, fun k hk => ?_, ?_, ?_⟩
  · rw [lastObject_concat]
    by_cases hpath : e.row.filesystemPath = path
    · subst hpath
      rw [if_pos rfl, objectAt, hup.found, Option.map_some, hup.row, Option.some_or]
    · rw [if_neg hpath, objectAt, hpaths path (Ne.symm hpath)]
      exact h.latest path
  · show s₂.columnAt e.row.projectId (.content contentHash) = _
    rw [hup.columnAt_eq h.constrained]
    exact h.content contentHash
  · exact (hup.columnAt_eq h.constrained k).trans (h.column k hk)
  · intro e' he'
    rcases List.mem_append.mp he' with he' | he'
    · -- The local ids of the others are still theirs, and so are the ids of their paths.
      obtain ⟨o', ho', hlookup⟩ := h.map e' he'
      have hlocal : (e'.localId == e.localId) = false := by simpa using hfresh e' he'
      have hlookup : ((e.localId, o.id) :: m).lookup e'.localId = some o'.id := by
        rw [List.lookup_cons, hlocal]
        exact hlookup
      by_cases hpath : e'.row.filesystemPath = e.row.filesystemPath
      · rw [hpath] at ho' ⊢
        exact ⟨o, hup.found, by rw [hlookup, hup.id_of_found o' ho']⟩
      · exact ⟨o', by rw [hpaths _ hpath, ho'], hlookup⟩
    · rw [List.mem_singleton.mp he']
      exact ⟨o, hup.found, by rw [List.lookup_cons, beq_self_eq_true]⟩
  · show s₂.symbols = s.symbols
    rw [hup.rest]
    exact h.symbols

/-- The objects of a statement. -/
theorem Entered.upserts {entries contents rows : List ObjectInsert} {s' : Store × ObjectMap}
    (h : Entered projectId s entries contents s') (hproject : ∀ e ∈ rows, e.row.projectId = projectId)
    (hnd : ((entries ++ rows).map (·.localId)).Nodup) :
    Entered projectId s (entries ++ rows) contents (rows.foldl upsertObject s') := by
  induction rows generalizing entries s' with
  | nil => rwa [List.append_nil]
  | cons e rows ih =>
    have hsplit : entries ++ e :: rows = entries ++ [e] ++ rows := by
      rw [List.append_assoc, List.singleton_append]
    have hfresh : ∀ e' ∈ entries, e'.localId ≠ e.localId := by
      rw [List.map_append, List.map_cons, List.nodup_append] at hnd
      exact fun e' he' => hnd.2.2 _ (List.mem_map_of_mem he') _ List.mem_cons_self
    rw [hsplit] at hnd ⊢
    exact ih (h.upsert (hproject e List.mem_cons_self) hfresh)
      (fun e' he' => hproject e' (List.mem_cons_of_mem e he')) hnd

/-- The contents of a statement. -/
theorem Entered.contents {entries contents : List ObjectInsert} {s' : Store × ObjectMap}
    (h : Entered projectId s entries contents s') (rows : List ObjectInsert) :
    Entered projectId s entries (contents ++ rows)
      ((contentRows rows).foldl insertContent s'.1, s'.2) := by
  obtain ⟨l, hl⟩ := insertContents_eq s'.1 (contentRows rows)
  have hcontent := findContent_insertContents s'.1 rows
  rw [hl] at hcontent ⊢
  refine ⟨h.constrained.of_eq rfl rfl rfl rfl rfl, h.latest, fun contentHash => ?_, fun k hk => ?_,
    h.map, h.symbols⟩
  · rw [hcontent, h.content, Option.or_assoc, firstContent, firstContent, firstContent,
      List.findSome?_append]
  · rw [← h.column k hk]
    cases k with
    | content contentHash => exact absurd rfl (hk contentHash)
    | inst symbol path offsetRange layer => rfl
    | ref toSymbol path fromOffsetRange layer => rfl

/-- The statements that insert rows insert all of them, in order. -/
theorem flatten_chunks {α : Type} {size : ℕ} (hsize : 0 < size) (rows : List α) :
    (chunks size rows).flatten = rows := by
  have htake : ∀ n, ((List.range n).map fun k => (rows.drop (k * size)).take size).flatten =
      rows.take (n * size) := by
    intro n
    induction n with
    | zero => simp
    | succ n ih =>
      rw [List.range_succ, List.map_append, List.flatten_append, ih, Nat.succ_mul, List.take_add]
      simp
  rw [chunks, htake]
  refine List.take_of_length_le ?_
  have hlt := Nat.lt_mul_div_succ (rows.length + size - 1) hsize
  rw [Nat.mul_comm, Nat.add_mul] at hlt
  omega

/-- Statements that meet no path twice go through. -/
theorem Entered.statements {entries : List ObjectInsert} {s' : Store × ObjectMap}
    (h : Entered projectId s entries entries s') {statements : List (List ObjectInsert)}
    (hproject : ∀ rows ∈ statements, ∀ e ∈ rows, e.row.projectId = projectId)
    (hnd : ((entries ++ statements.flatten).map (·.localId)).Nodup)
    (hpaths : ∀ rows ∈ statements,
      (rows.map fun e => (e.row.projectId, e.row.filesystemPath)).Nodup) :
    ∃ s'', statements.foldlM insertObjectRows s' = .ok s'' ∧
      Entered projectId s (entries ++ statements.flatten) (entries ++ statements.flatten) s'' := by
  induction statements generalizing entries s' with
  | nil => exact ⟨s', rfl, by simpa using h⟩
  | cons rows statements ih =>
    rw [List.flatten_cons, ← List.append_assoc] at hnd ⊢
    have hnd' : ((entries ++ rows).map (·.localId)).Nodup := by
      rw [List.map_append] at hnd
      exact (List.nodup_append.mp hnd).1
    have hrows := (h.upserts (hproject rows List.mem_cons_self) hnd').contents rows
    obtain ⟨s'', hs'', hentered⟩ := ih hrows
      (fun rows' hrows' => hproject rows' (List.mem_cons_of_mem rows hrows')) hnd
      (fun rows' hrows' => hpaths rows' (List.mem_cons_of_mem rows hrows'))
    refine ⟨s'', ?_, hentered⟩
    rw [List.foldlM_cons, Fallible.bind_eq_ok]
    refine ⟨_, ?_, hs''⟩
    rw [insertObjectRows, if_pos (hpaths rows List.mem_cons_self)]
    rfl

/-- What is built of the objects of a chunk: rows of the project, with distinct local ids, at
the paths of the objects. -/
theorem buildObjectsFrom_ok {hashBytes : Bytes → Text} {rootLayerId : ℤ} {seen : List ℤ}
    {objects : List UploadObject} {inserts : List ObjectInsert}
    (h : buildObjectsFrom hashBytes projectId rootLayerId seen objects = .ok inserts) :
    (∀ e ∈ inserts, e.row.projectId = projectId ∧ e.localId ∉ seen) ∧
      (inserts.map (·.localId)).Nodup ∧
      ∀ object ∈ objects, ∃ e ∈ inserts, e.localId = object.localId ∧
        e.row.filesystemPath = object.path := by
  induction objects generalizing seen inserts with
  | nil =>
    obtain rfl := Except.ok.inj h
    simp
  | cons object objects ih =>
    obtain ⟨hseen, e, others, hentry, hothers, rfl⟩ := buildObjectsFrom_cons_ok h
    obtain ⟨hrows, hnd, hpaths⟩ := ih hothers
    refine ⟨?_, ?_, ?_⟩
    · intro e' he'
      rcases List.mem_cons.mp he' with rfl | he'
      · exact ⟨hentry.project, hentry.localId ▸ hseen⟩
      · exact ⟨(hrows e' he').1, fun hmem => (hrows e' he').2 (List.mem_cons_of_mem _ hmem)⟩
    · rw [List.map_cons, List.nodup_cons]
      refine ⟨fun hmem => ?_, hnd⟩
      obtain ⟨e', he', hsame⟩ := List.mem_map.mp hmem
      rw [hentry.localId] at hsame
      exact (hrows e' he').2 (hsame ▸ List.mem_cons_self)
    · intro object' hobject'
      rcases List.mem_cons.mp hobject' with rfl | hobject'
      · exact ⟨e, List.mem_cons_self, hentry.localId, hentry.path⟩
      · obtain ⟨e', he', hsame⟩ := hpaths object' hobject'
        exact ⟨e', List.mem_cons_of_mem e he', hsame⟩

/-! ### Instances and references -/

/-- The id of the object at a path. -/
def idAt (s : Store) (projectId : ℤ) (path : Text) : ℤ :=
  ((s.findObject projectId path).map (·.id)).getD 0

theorem idAt_of_found {path : Text} {o : ObjectRow} (h : s.findObject projectId path = some o) :
    s.idAt projectId path = o.id := by
  rw [idAt, h]
  rfl

end Store

/-- Put an instance into an object. -/
def NewSymbolInstance.into (row : NewSymbolInstance) (objectId : ℤ) : NewSymbolInstance :=
  { row with objectId := objectId }

/-- Put a reference into an object. -/
def NewSymbolRef.into (row : NewSymbolRef) (objectId : ℤ) : NewSymbolRef :=
  { row with fromObject := objectId }

theorem buildSymbolInstance_eq (projectId rootLayerId objectId : ℤ) (inst : UploadInstance) :
    buildSymbolInstance projectId rootLayerId objectId inst =
      (buildSymbolInstance projectId rootLayerId 0 inst).map (·.into objectId) := by
  unfold buildSymbolInstance
  cases computeSymbolId projectId inst.symbolLocalId with
  | error e => rfl
  | ok symbolId =>
    by_cases htype : inst.instanceType ≠ 0
    · simp only [if_pos htype]
      cases validateInstanceType inst.instanceType <;> rfl
    · simp only [if_neg htype]
      rfl

theorem buildSymbolRef_eq (projectId rootLayerId objectId : ℤ) (reference : UploadRef) :
    buildSymbolRef projectId rootLayerId objectId reference =
      (buildSymbolRef projectId rootLayerId 0 reference).map (·.into objectId) := by
  unfold buildSymbolRef
  cases computeSymbolId projectId reference.toSymbolLocalId <;> rfl

section Placed

variable {α β γ : Type} {rowsOf : UploadObject → List α} {build : α → Except UploadError β}

/-- The rows are in the objects that carry them. -/
theorem exists_of_mem_placed {objects : List UploadObject} {rows : List (Text × β)}
    (h : placed rowsOf build objects = .ok rows) :
    ∀ x ∈ rows, ∃ object ∈ objects, object.path = x.1 := by
  induction objects generalizing rows with
  | nil =>
    obtain rfl := Except.ok.inj h
    simp
  | cons object objects ih =>
    obtain ⟨built, -, h⟩ := Fallible.bind_eq_ok.mp h
    obtain ⟨others, hothers, h⟩ := Fallible.bind_eq_ok.mp h
    obtain rfl := Except.ok.inj h
    intro x hx
    rcases List.mem_append.mp hx with hx | hx
    · obtain ⟨row, -, rfl⟩ := List.mem_map.mp hx
      exact ⟨object, List.mem_cons_self, rfl⟩
    · obtain ⟨object', hobject', hpath⟩ := ih hothers x hx
      exact ⟨object', List.mem_cons_of_mem object hobject', hpath⟩

/-- The rows of the first object, and those of the others, each put into its object. -/
theorem placed_cons_map (into : β → ℤ → γ) (idOf : Text → ℤ) (object : UploadObject)
    (objects : List UploadObject) :
    (placed rowsOf build (object :: objects)).map (List.map fun x => into x.2 (idOf x.1)) =
      (do
        let rows ← (rowsOf object).mapM fun a => (build a).map fun b => into b (idOf object.path)
        let others ← (placed rowsOf build objects).map (List.map fun x => into x.2 (idOf x.1))
        pure (rows ++ others)) := by
  rw [Fallible.mapM_map (g := fun b => into b (idOf object.path)), placed]
  cases (rowsOf object).mapM build with
  | error e => rfl
  | ok rows =>
    cases placed rowsOf build objects with
    | error e => rfl
    | ok others =>
      show Except.ok _ = Except.ok _
      rw [List.map_append, List.map_map]
      rfl

end Placed

/-- The instances of a chunk are its rows, put into the objects of their paths. -/
theorem buildSymbolInstances_eq {projectId rootLayerId : ℤ} {map : ObjectMap} {idOf : Text → ℤ}
    {objects : List UploadObject}
    (hmap : ∀ object ∈ objects, map.lookup object.localId = some (idOf object.path)) :
    buildSymbolInstances projectId rootLayerId map objects =
      (placed (·.symbolInstances) (buildSymbolInstance projectId rootLayerId 0) objects).map
        (List.map fun x => x.2.into (idOf x.1)) := by
  induction objects with
  | nil => rfl
  | cons object objects ih =>
    have hid : resolveObjectId map object.localId = .ok (idOf object.path) := by
      rw [resolveObjectId, hmap object List.mem_cons_self]
    rw [placed_cons_map NewSymbolInstance.into, buildSymbolInstances, hid,
      ih fun object' hobject' => hmap object' (List.mem_cons_of_mem object hobject'),
      ← funext (buildSymbolInstance_eq projectId rootLayerId (idOf object.path))]
    rfl

/-- The references of a chunk are its rows, put into the objects of their paths. -/
theorem buildSymbolRefs_eq {projectId rootLayerId : ℤ} {map : ObjectMap} {idOf : Text → ℤ}
    {objects : List UploadObject}
    (hmap : ∀ object ∈ objects, map.lookup object.localId = some (idOf object.path)) :
    buildSymbolRefs projectId rootLayerId map objects =
      (placed (·.refs) (buildSymbolRef projectId rootLayerId 0) objects).map
        (List.map fun x => x.2.into (idOf x.1)) := by
  induction objects with
  | nil => rfl
  | cons object objects ih =>
    have hid : resolveObjectId map object.localId = .ok (idOf object.path) := by
      rw [resolveObjectId, hmap object List.mem_cons_self]
    rw [placed_cons_map NewSymbolRef.into, buildSymbolRefs, hid,
      ih fun object' hobject' => hmap object' (List.mem_cons_of_mem object hobject'),
      ← funext (buildSymbolRef_eq projectId rootLayerId (idOf object.path))]
    rfl

namespace Store

variable {s : Store} {projectId : ℤ}

/-- Every instance and every reference is to a symbol there is. -/
def SymbolsExist (s : Store) : Prop :=
  (∀ i ∈ s.symbolInstances, ∃ y ∈ s.symbols, y.id = i.symbol) ∧
    ∀ r ∈ s.symbolRefs, ∃ y ∈ s.symbols, y.id = r.toSymbol

/-- An instance that is inserted, or there already, is acceptable. -/
theorem acceptsRange_of_insertSymbolInstance {s' : Store} {row : NewSymbolInstance}
    (hs : s.SymbolsExist) (h : s.insertSymbolInstance row = .ok s') :
    (s'.SymbolsExist ∧ s'.symbols = s.symbols) ∧
      s.acceptsRange row.symbol row.startOffset row.endOffset = true := by
  unfold insertSymbolInstance at h
  unfold acceptsRange
  split at h
  · cases h
  · next range hrange =>
    rw [hrange, Option.isSome_some, Bool.true_and]
    split at h
    · next hany =>
      obtain rfl := Except.ok.inj h
      rw [List.any_eq_true] at hany
      obtain ⟨i, hi, hkey⟩ := hany
      have hsymbol : i.symbol = row.symbol := by
        simp only [Bool.and_eq_true, beq_iff_eq] at hkey
        exact hkey.1.1.1
      exact ⟨⟨hs, rfl⟩, any_symbols.mpr (hsymbol ▸ hs.1 i hi)⟩
    · split at h
      · cases h
      · next hsymbol =>
        obtain rfl := Except.ok.inj h
        have hsymbol : s.symbols.any (·.id == row.symbol) = true := by simpa using hsymbol
        refine ⟨⟨⟨fun i hi => ?_, hs.2⟩, rfl⟩, hsymbol⟩
        rcases List.mem_append.mp hi with hi | hi
        · exact hs.1 i hi
        · rw [List.mem_singleton.mp hi]
          exact any_symbols.mp hsymbol

/-- A reference that is inserted, or there already, is acceptable. -/
theorem acceptsRange_of_insertSymbolRef {s' : Store} {row : NewSymbolRef}
    (hs : s.SymbolsExist) (h : s.insertSymbolRef row = .ok s') :
    (s'.SymbolsExist ∧ s'.symbols = s.symbols) ∧
      s.acceptsRange row.toSymbol row.fromOffsetStart row.fromOffsetEnd = true := by
  unfold insertSymbolRef at h
  unfold acceptsRange
  split at h
  · cases h
  · next range hrange =>
    rw [hrange, Option.isSome_some, Bool.true_and]
    split at h
    · next hany =>
      obtain rfl := Except.ok.inj h
      rw [List.any_eq_true] at hany
      obtain ⟨r, hr, hkey⟩ := hany
      have hsymbol : r.toSymbol = row.toSymbol := by
        simp only [Bool.and_eq_true, beq_iff_eq] at hkey
        exact hkey.1.1.1
      exact ⟨⟨hs, rfl⟩, any_symbols.mpr (hsymbol ▸ hs.2 r hr)⟩
    · split at h
      · cases h
      · next hsymbol =>
        obtain rfl := Except.ok.inj h
        have hsymbol : s.symbols.any (·.id == row.toSymbol) = true := by simpa using hsymbol
        refine ⟨⟨⟨hs.1, fun r hr => ?_⟩, rfl⟩, hsymbol⟩
        rcases List.mem_append.mp hr with hr | hr
        · exact hs.2 r hr
        · rw [List.mem_singleton.mp hr]
          exact any_symbols.mp hsymbol

/-- A column of the object at a path grows by what is entered at the object of one path. -/
theorem bind_findObject_or {β : Type} {path path' : Text} {o : ObjectRow}
    (ho : s.findObject projectId path = some o) {before after : ObjectRow → Option β}
    {entered : Option β}
    (hsome : ∀ o', s.findObject projectId path' = some o' → after o' = (before o').or entered)
    (hnone : path ≠ path' → entered = none) :
    (s.findObject projectId path').bind after =
      ((s.findObject projectId path').bind before).or entered := by
  cases hpath : s.findObject projectId path' with
  | none =>
    have hne : path ≠ path' := by
      rintro rfl
      rw [ho] at hpath
      cases hpath
    rw [hnone hne]
    rfl
  | some o' => exact hsome o' hpath

/-- An instance of a symbol in an object is entered under the constraints. -/
theorem Constrained.insertInstance (hs : s.Constrained) {i : SymbolInstance} (next : ℤ)
    (hsymbol : ∃ y ∈ s.symbols, y.id = i.symbol) (hobject : ∃ o ∈ s.objects, o.id = i.objectId) :
    ({ s with symbolInstances := Keyed.insertNew instanceKey s.symbolInstances i
              nextInstanceId := next } : Store).Constrained :=
  { hs with
    instanceKeys := Keyed.nodup_insertNew hs.instanceKeys i
    instanceSymbols := by
      intro j hj
      rcases Keyed.mem_insertNew hj with hj | rfl
      · exact hs.instanceSymbols j hj
      · exact hsymbol
    instanceObjects := by
      intro j hj
      rcases Keyed.mem_insertNew hj with hj | rfl
      · exact hs.instanceObjects j hj
      · exact hobject }

/-- A reference to a symbol in an object is entered under the constraints. -/
theorem Constrained.insertRef (hs : s.Constrained) {r : SymbolRef} (next : ℤ)
    (hsymbol : ∃ y ∈ s.symbols, y.id = r.toSymbol)
    (hobject : ∃ o ∈ s.objects, o.id = r.fromObject) :
    ({ s with symbolRefs := Keyed.insertNew refKey s.symbolRefs r
              nextRefId := next } : Store).Constrained :=
  { hs with
    refKeys := Keyed.nodup_insertNew hs.refKeys r
    refSymbols := by
      intro q hq
      rcases Keyed.mem_insertNew hq with hq | rfl
      · exact hs.refSymbols q hq
      · exact hsymbol
    refObjects := by
      intro q hq
      rcases Keyed.mem_insertNew hq with hq | rfl
      · exact hs.refObjects q hq
      · exact hobject }

/-- What is there after some instances. -/
structure InstancesEntered (projectId : ℤ) (s : Store) (rows : List (Text × NewSymbolInstance))
    (s' : Store) : Prop where
  constrained : s'.Constrained
  column : ∀ symbol path offsetRange layer,
    s'.columnAt projectId (.inst symbol path offsetRange layer) =
      (s.columnAt projectId (.inst symbol path offsetRange layer)).or
        (firstInstance rows symbol path offsetRange layer)
  rest : s' = { s with symbolInstances := s'.symbolInstances, nextInstanceId := s'.nextInstanceId }

theorem InstancesEntered.nil (projectId : ℤ) (hs : s.Constrained) : InstancesEntered projectId s [] s :=
  ⟨hs, fun _ _ _ _ => (Option.or_none).symm, rfl⟩

/-- One more instance. -/
theorem InstancesEntered.insert {rows : List (Text × NewSymbolInstance)} {s₁ : Store}
    (h : InstancesEntered projectId s rows s₁) {x : Text × NewSymbolInstance} {o : ObjectRow}
    (ho : s₁.findObject projectId x.1 = some o)
    (haccepts : s₁.acceptsRange x.2.symbol x.2.startOffset x.2.endOffset = true) :
    ∃ s₂, s₁.insertSymbolInstance (x.2.into o.id) = .ok s₂ ∧
      InstancesEntered projectId s (rows ++ [x]) s₂ := by
  rw [acceptsRange, Bool.and_eq_true, Option.isSome_iff_exists] at haccepts
  obtain ⟨⟨range, hrange⟩, hsymbol⟩ := haccepts
  obtain ⟨next, hinsert⟩ := insertSymbolInstance_eq (x.2.into o.id) hrange hsymbol
  set new : SymbolInstance := ⟨s₁.nextInstanceId, x.2.symbol, o.id, range, x.2.instanceType, x.2.layer⟩
    with hnew
  refine ⟨_, hinsert, ?_, ?_, by rw [h.rest]⟩
  · exact h.constrained.insertInstance next (any_symbols.mp hsymbol)
      ⟨o, (h.constrained.findObject_eq_some.mp ho).1, rfl⟩
  · intro symbol path offsetRange layer
    have hfirst : firstInstance (rows ++ [x]) symbol path offsetRange layer =
        (firstInstance rows symbol path offsetRange layer).or
          (firstInstance [x] symbol path offsetRange layer) := List.findSome?_append
    rw [hfirst, ← Option.or_assoc, ← h.column]
    show (s₁.findObject projectId path).bind _ =
      ((s₁.findObject projectId path).bind _).or (firstInstance [x] symbol path offsetRange layer)
    have hsingle : firstInstance [x] symbol path offsetRange layer =
        if x.2.symbol = symbol ∧ x.1 = path ∧ some range = some offsetRange ∧ x.2.layer = layer then
          some x.2.instanceType
        else none := by
      rw [firstInstance, List.findSome?_singleton, hrange]
    rw [hsingle]
    refine bind_findObject_or ho (fun o' hpath => ?_) fun hne => if_neg fun hkey => hne hkey.2.1
    have hid := h.constrained.id_eq_iff ho hpath
    have hkey : instanceKey new = (symbol, o'.id, offsetRange, layer) ↔
        x.2.symbol = symbol ∧ x.1 = path ∧ some range = some offsetRange ∧ x.2.layer = layer := by
      simp only [instanceKey, hnew, Prod.mk.injEq, hid, Option.some.injEq]
    rw [findInstance_insertNew (i := new) rfl, Option.map_or]
    congr 1
    simp only [hkey]
    split <;> rfl

/-- The instances of a chunk, put into objects that are there. -/
theorem InstancesEntered.all {done rows : List (Text × NewSymbolInstance)} {s₁ : Store}
    (h : InstancesEntered projectId s done s₁)
    (hobjects : ∀ x ∈ rows, (s.findObject projectId x.1).isSome)
    (haccepts : ∀ x ∈ rows, s.acceptsRange x.2.symbol x.2.startOffset x.2.endOffset = true) :
    ∃ s₂, (rows.map fun x => x.2.into (s.idAt projectId x.1)).foldlM insertSymbolInstance s₁ =
        .ok s₂ ∧ InstancesEntered projectId s (done ++ rows) s₂ := by
  refine Fallible.exists_foldlM (I := InstancesEntered projectId s) (fun x hx done s₁ h => ?_) h
  obtain ⟨o, ho⟩ := Option.isSome_iff_exists.mp (hobjects x hx)
  rw [idAt_of_found ho]
  refine h.insert ?_ ?_
  · rw [h.rest]
    exact ho
  · rw [h.rest]
    exact haccepts x hx

/-- What is there after some references. -/
structure RefsEntered (projectId : ℤ) (s : Store) (rows : List (Text × NewSymbolRef))
    (s' : Store) : Prop where
  constrained : s'.Constrained
  column : ∀ toSymbol path fromOffsetRange layer,
    s'.columnAt projectId (.ref toSymbol path fromOffsetRange layer) =
      (s.columnAt projectId (.ref toSymbol path fromOffsetRange layer)).or
        (firstRef rows toSymbol path fromOffsetRange layer)
  rest : s' = { s with symbolRefs := s'.symbolRefs, nextRefId := s'.nextRefId }

theorem RefsEntered.nil (projectId : ℤ) (hs : s.Constrained) : RefsEntered projectId s [] s :=
  ⟨hs, fun _ _ _ _ => (Option.or_none).symm, rfl⟩

/-- One more reference. -/
theorem RefsEntered.insert {rows : List (Text × NewSymbolRef)} {s₁ : Store}
    (h : RefsEntered projectId s rows s₁) {x : Text × NewSymbolRef} {o : ObjectRow}
    (ho : s₁.findObject projectId x.1 = some o)
    (haccepts : s₁.acceptsRange x.2.toSymbol x.2.fromOffsetStart x.2.fromOffsetEnd = true) :
    ∃ s₂, s₁.insertSymbolRef (x.2.into o.id) = .ok s₂ ∧
      RefsEntered projectId s (rows ++ [x]) s₂ := by
  rw [acceptsRange, Bool.and_eq_true, Option.isSome_iff_exists] at haccepts
  obtain ⟨⟨range, hrange⟩, hsymbol⟩ := haccepts
  obtain ⟨next, hinsert⟩ := insertSymbolRef_eq (x.2.into o.id) hrange hsymbol
  set new : SymbolRef := ⟨s₁.nextRefId, x.2.toSymbol, o.id, range, x.2.layer⟩ with hnew
  refine ⟨_, hinsert, ?_, ?_, by rw [h.rest]⟩
  · exact h.constrained.insertRef next (any_symbols.mp hsymbol)
      ⟨o, (h.constrained.findObject_eq_some.mp ho).1, rfl⟩
  · intro toSymbol path fromOffsetRange layer
    have hfirst : firstRef (rows ++ [x]) toSymbol path fromOffsetRange layer =
        (firstRef rows toSymbol path fromOffsetRange layer).or
          (firstRef [x] toSymbol path fromOffsetRange layer) := List.findSome?_append
    rw [hfirst, ← Option.or_assoc, ← h.column]
    show (s₁.findObject projectId path).bind _ =
      ((s₁.findObject projectId path).bind _).or (firstRef [x] toSymbol path fromOffsetRange layer)
    have hsingle : firstRef [x] toSymbol path fromOffsetRange layer =
        if x.2.toSymbol = toSymbol ∧ x.1 = path ∧ some range = some fromOffsetRange ∧
          x.2.layer = layer then some () else none := by
      rw [firstRef, List.findSome?_singleton, hrange]
    rw [hsingle]
    refine bind_findObject_or ho (fun o' hpath => ?_) fun hne => if_neg fun hkey => hne hkey.2.1
    have hid := h.constrained.id_eq_iff ho hpath
    have hkey : refKey new = (toSymbol, o'.id, fromOffsetRange, layer) ↔
        x.2.toSymbol = toSymbol ∧ x.1 = path ∧ some range = some fromOffsetRange ∧
          x.2.layer = layer := by
      simp only [refKey, hnew, Prod.mk.injEq, hid, Option.some.injEq]
    rw [findRef_insertNew (r := new) rfl, Option.map_or]
    congr 1
    simp only [hkey]
    split <;> rfl

/-- The references of a chunk, put into objects that are there. -/
theorem RefsEntered.all {done rows : List (Text × NewSymbolRef)} {s₁ : Store}
    (h : RefsEntered projectId s done s₁)
    (hobjects : ∀ x ∈ rows, (s.findObject projectId x.1).isSome)
    (haccepts : ∀ x ∈ rows,
      s.acceptsRange x.2.toSymbol x.2.fromOffsetStart x.2.fromOffsetEnd = true) :
    ∃ s₂, (rows.map fun x => x.2.into (s.idAt projectId x.1)).foldlM insertSymbolRef s₁ =
        .ok s₂ ∧ RefsEntered projectId s (done ++ rows) s₂ := by
  refine Fallible.exists_foldlM (I := RefsEntered projectId s) (fun x hx done s₁ h => ?_) h
  obtain ⟨o, ho⟩ := Option.isSome_iff_exists.mp (hobjects x hx)
  rw [idAt_of_found ho]
  refine h.insert ?_ ?_
  · rw [h.rest]
    exact ho
  · rw [h.rest]
    exact haccepts x hx

/-! ### A chunk -/

/-- The contents that the objects of a chunk need are there iff none is missing. -/
theorem missingHashes_isEmpty_iff (s : Store) (projectId : ℤ) (rows : ChunkRows) :
    (s.missingHashes rows.objects).isEmpty = true ↔
      ∀ k ∈ rows.writes.needs, (s.columnAt projectId k).isSome := by
  have hcontent : ∀ contentHash, (s.findContent contentHash).isSome =
      s.contentStore.any (·.contentHash == contentHash) := by
    intro contentHash
    rw [findContent, Option.isSome_map, Bool.eq_iff_iff, List.find?_isSome, List.any_eq_true]
  simp only [missingHashes, List.isEmpty_iff, List.filter_eq_nil_iff, List.mem_eraseDups,
    ChunkRows.writes, List.forall_mem_map]
  refine forall₂_congr fun e _ => ?_
  show _ ↔ (s.findContent e.row.contentHash).isSome = true
  rw [hcontent]
  simp

/-- What a chunk leaves in the catalogue: the last object at a path, and the first column of a
key. -/
structure ChunkEntered (projectId : ℤ) (s : Store) (rows : ChunkRows) (s' : Store) : Prop where
  constrained : s'.Constrained
  latest : ∀ path, s'.objectAt projectId path =
    (rows.writes.latest path).or (s.objectAt projectId path)
  fill : ∀ k, s'.columnAt projectId k = (s.columnAt projectId k).or (rows.writes.fill k)
  symbols : s'.symbols = s.symbols

variable {hashBytes : Bytes → Text} {rootLayerId : ℤ} {upload : UploadProject} {rows : ChunkRows}

/-- The objects of a chunk are inserted when no statement meets a path twice. -/
theorem exists_insertObjects (hs : s.Constrained) {inserts : List ObjectInsert}
    (hbuild : buildObjects hashBytes projectId rootLayerId upload.objects = .ok inserts)
    (hnd : ∀ statement ∈ chunks maxInsertRows inserts,
      (statement.map fun e => (e.row.projectId, e.row.filesystemPath)).Nodup) :
    ∃ inserted, s.insertObjects inserts = .ok inserted ∧
      Entered projectId s inserts inserts inserted ∧
      ∀ object ∈ upload.objects, inserted.2.lookup object.localId =
        some (inserted.1.idAt projectId object.path) := by
  obtain ⟨hentries, hlocal, hpaths⟩ := buildObjectsFrom_ok hbuild
  have hflatten : (chunks maxInsertRows inserts).flatten = inserts :=
    flatten_chunks (by decide) inserts
  have hmem : ∀ statement ∈ chunks maxInsertRows inserts, ∀ e ∈ statement, e ∈ inserts := by
    intro statement hstatement e he
    rw [← hflatten]
    exact List.mem_flatten.mpr ⟨statement, hstatement, he⟩
  obtain ⟨inserted, hinserted, hentered⟩ := (Entered.nil projectId hs).statements
    (fun statement hstatement e he => (hentries e (hmem statement hstatement e he)).1)
    (by rw [List.nil_append, hflatten]; exact hlocal) hnd
  rw [List.nil_append, hflatten] at hentered
  refine ⟨inserted, hinserted, hentered, fun object hobject => ?_⟩
  obtain ⟨e, he, hid, hpath⟩ := hpaths object hobject
  obtain ⟨o, ho, hlookup⟩ := hentered.map e he
  rw [hpath] at ho
  rw [← hid, hlookup, idAt_of_found ho]

/-- **A chunk that is accepted** enters its rows. -/
theorem exists_doUploadObjects (hs : s.Constrained)
    (hroot : s.rootLayerOf projectId = .ok rootLayerId)
    (hrows : chunkRows hashBytes projectId rootLayerId upload = .ok rows)
    (haccepts : s.acceptsRows rows = true)
    (hneeds : ∀ k ∈ rows.writes.needs, (s.columnAt projectId k).isSome) :
    ∃ s', s.doUploadObjects hashBytes projectId upload = .ok s' ∧
      ChunkEntered projectId s rows s' := by
  obtain ⟨inserts, hbuild, hrows⟩ := Fallible.bind_eq_ok.mp hrows
  obtain ⟨instances, hinstances, hrows⟩ := Fallible.bind_eq_ok.mp hrows
  obtain ⟨refs, hrefs, hrows⟩ := Fallible.bind_eq_ok.mp hrows
  obtain rfl := Except.ok.inj hrows
  simp only [acceptsRows, Bool.and_eq_true, List.all_eq_true, decide_eq_true_eq] at haccepts
  obtain ⟨inserted, hinserted, hentered, hmap⟩ := exists_insertObjects hs hbuild haccepts.1.1
  -- The objects of instances and references are among those of the chunk.
  have hfound : ∀ path, (∃ object ∈ upload.objects, object.path = path) →
      (inserted.1.findObject projectId path).isSome := by
    rintro path ⟨object, hobject, rfl⟩
    obtain ⟨e, he, -, hpath⟩ := (buildObjectsFrom_ok hbuild).2.2 object hobject
    obtain ⟨o, ho, -⟩ := hentered.map e he
    rw [← hpath, ho]
    rfl
  have haccepts' : ∀ symbol startOffset endOffset, inserted.1.acceptsRange symbol startOffset endOffset =
      s.acceptsRange symbol startOffset endOffset := by
    intro symbol startOffset endOffset
    rw [acceptsRange, hentered.symbols, acceptsRange]
  obtain ⟨s₁, hs₁, hinst⟩ := (InstancesEntered.nil projectId hentered.constrained).all
    (fun x hx => hfound x.1 (exists_of_mem_placed hinstances x hx))
    (fun x hx => by rw [haccepts']; exact haccepts.1.2 x hx)
  rw [List.nil_append] at hinst
  have hid : ∀ path, s₁.idAt projectId path = inserted.1.idAt projectId path := by
    intro path
    rw [hinst.rest]
    rfl
  obtain ⟨s₂, hs₂, href⟩ := (RefsEntered.nil projectId hinst.constrained).all
    (fun x hx => by
      rw [hinst.rest]
      exact hfound x.1 (exists_of_mem_placed hrefs x hx))
    (fun x hx => by
      rw [hinst.rest]
      exact (haccepts' _ _ _).trans (haccepts.2 x hx))
  rw [List.nil_append] at href
  refine ⟨s₂, ?_, href.constrained, fun path => ?_, fun k => ?_, ?_⟩
  · refine Fallible.bind_eq_ok.mpr ⟨rootLayerId, hroot, Fallible.bind_eq_ok.mpr ⟨inserts, hbuild, ?_⟩⟩
    rw [if_pos ((missingHashes_isEmpty_iff s projectId _).mpr hneeds)]
    refine Fallible.bind_eq_ok.mpr ⟨inserted, hinserted, Fallible.bind_eq_ok.mpr ⟨_, ?_,
      Fallible.bind_eq_ok.mpr ⟨s₁, hs₁, Fallible.bind_eq_ok.mpr ⟨_, ?_, hs₂⟩⟩⟩⟩
    · rw [buildSymbolInstances_eq hmap, hinstances]
      rfl
    · rw [buildSymbolRefs_eq hmap, hrefs]
      simp only [hid]
      rfl
  · rw [show s₂.objectAt projectId path = inserted.1.objectAt projectId path by
      rw [href.rest, hinst.rest]; rfl]
    exact hentered.latest path
  · cases k with
    | content contentHash =>
      show s₂.findContent contentHash = _
      rw [href.rest, hinst.rest]
      exact hentered.content contentHash
    | inst symbol path offsetRange layer =>
      rw [show s₂.columnAt projectId (.inst symbol path offsetRange layer) =
          s₁.columnAt projectId (.inst symbol path offsetRange layer) by rw [href.rest]; rfl,
        hinst.column, hentered.column _ (by simp)]
      rfl
    | ref toSymbol path fromOffsetRange layer =>
      rw [href.column, show s₁.columnAt projectId (.ref toSymbol path fromOffsetRange layer) =
          inserted.1.columnAt projectId (.ref toSymbol path fromOffsetRange layer) by
            rw [hinst.rest]; rfl,
        hentered.column _ (by simp)]
      rfl
  · rw [href.rest, hinst.rest]
    exact hentered.symbols

/-- A chunk that commits is accepted, and no content it needs is missing. -/
theorem accepts_of_doUploadObjects (hs : s.Constrained) {s' : Store}
    (h : s.doUploadObjects hashBytes projectId upload = .ok s') :
    ∃ rootLayerId rows, s.rootLayerOf projectId = .ok rootLayerId ∧
      chunkRows hashBytes projectId rootLayerId upload = .ok rows ∧ s.acceptsRows rows = true ∧
      ∀ k ∈ rows.writes.needs, (s.columnAt projectId k).isSome := by
  obtain ⟨rootLayerId, hroot, h⟩ := Fallible.bind_eq_ok.mp h
  obtain ⟨inserts, hbuild, h⟩ := Fallible.bind_eq_ok.mp h
  split at h
  swap
  · cases h
  next hmissing =>
  obtain ⟨inserted, hinserted, h⟩ := Fallible.bind_eq_ok.mp h
  obtain ⟨instanceRows, hinstanceRows, h⟩ := Fallible.bind_eq_ok.mp h
  obtain ⟨s₁, hs₁, h⟩ := Fallible.bind_eq_ok.mp h
  obtain ⟨refRows, hrefRows, hs₂⟩ := Fallible.bind_eq_ok.mp h
  have hpaths : ∀ statement ∈ chunks maxInsertRows inserts,
      (statement.map fun e => (e.row.projectId, e.row.filesystemPath)).Nodup := by
    refine Fallible.forall_of_foldlM (I := fun _ => True) ?_ hinserted trivial
    intro statement _ c c' _ hstep
    unfold insertObjectRows at hstep
    split at hstep
    · next hnd => exact ⟨trivial, hnd⟩
    · cases hstep
  obtain ⟨inserted', hinserted', hentered, hmap⟩ := exists_insertObjects hs hbuild hpaths
  rw [hinserted] at hinserted'
  obtain rfl := Except.ok.inj hinserted'
  rw [buildSymbolInstances_eq hmap] at hinstanceRows
  rw [buildSymbolRefs_eq hmap] at hrefRows
  obtain ⟨instances, hinstances, rfl⟩ := Fallible.map_eq_ok.mp hinstanceRows
  obtain ⟨refs, hrefs, rfl⟩ := Fallible.map_eq_ok.mp hrefRows
  -- The symbols are the ones before the chunk all along.
  have haccepts : ∀ {c : Store}, c.symbols = s.symbols → ∀ symbol startOffset endOffset,
      c.acceptsRange symbol startOffset endOffset = s.acceptsRange symbol startOffset endOffset := by
    intro c hc symbol startOffset endOffset
    rw [acceptsRange, hc, acceptsRange]
  have hexist : inserted.1.SymbolsExist ∧ inserted.1.symbols = s.symbols :=
    ⟨⟨hentered.constrained.instanceSymbols, hentered.constrained.refSymbols⟩, hentered.symbols⟩
  have hinst := Fallible.forall_of_foldlM
    (I := fun c : Store => c.SymbolsExist ∧ c.symbols = s.symbols)
    (P := fun row => s.acceptsRange row.symbol row.startOffset row.endOffset = true)
    (fun row _ c c' hc hstep => by
      obtain ⟨hc', hrow⟩ := acceptsRange_of_insertSymbolInstance hc.1 hstep
      exact ⟨⟨hc'.1, hc'.2.trans hc.2⟩, (haccepts hc.2 _ _ _).symm.trans hrow⟩) hs₁ hexist
  have hexist₁ : s₁.SymbolsExist ∧ s₁.symbols = s.symbols :=
    Fallible.invariant_of_foldlM (I := fun c : Store => c.SymbolsExist ∧ c.symbols = s.symbols)
      (fun row _ c c' hc hstep => by
        obtain ⟨hc', -⟩ := acceptsRange_of_insertSymbolInstance hc.1 hstep
        exact ⟨hc'.1, hc'.2.trans hc.2⟩) hs₁ hexist
  have href := Fallible.forall_of_foldlM
    (I := fun c : Store => c.SymbolsExist ∧ c.symbols = s.symbols)
    (P := fun row => s.acceptsRange row.toSymbol row.fromOffsetStart row.fromOffsetEnd = true)
    (fun row _ c c' hc hstep => by
      obtain ⟨hc', hrow⟩ := acceptsRange_of_insertSymbolRef hc.1 hstep
      exact ⟨⟨hc'.1, hc'.2.trans hc.2⟩, (haccepts hc.2 _ _ _).symm.trans hrow⟩) hs₂ hexist₁
  rw [List.forall_mem_map] at hinst href
  refine ⟨rootLayerId, ⟨inserts, instances, refs⟩, hroot, ?_, ?_, ?_⟩
  · refine Fallible.bind_eq_ok.mpr ⟨inserts, hbuild, Fallible.bind_eq_ok.mpr ⟨instances, hinstances,
      Fallible.bind_eq_ok.mpr ⟨refs, hrefs, rfl⟩⟩⟩
  · simp only [acceptsRows, Bool.and_eq_true, List.all_eq_true, decide_eq_true_eq]
    exact ⟨⟨hpaths, hinst⟩, href⟩
  · exact (missingHashes_isEmpty_iff s projectId ⟨inserts, instances, refs⟩).mp hmissing

end Store

end Askl
