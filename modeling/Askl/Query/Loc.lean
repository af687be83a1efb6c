import Askl.Index.LineIndex
import Askl.Library.Utf8
import Askl.Query.BlockKeys
import Askl.Query.LayerTable
import Askl.Store.Filed
import Mathlib.Data.List.ReduceOption

/-!
# Locations

`loc` selects a line of the files that a path matches.  Its base layers are keyed by its
arguments alone.  What a base holds comes from one resolution over all visible roots, which
fails when no file matches or no matching file has the line, and of which a root takes the
matches in its own project.

## Main definitions

* `LocSelector`, `LocSelector.new` — the arguments of the verb.
* `locStream` — what the key of the base hashes.
* `findObjectsByPathOn`, `getFileContentsBytesOn` — the queries of the resolution.
* `resolve`, `buildInstances` — the resolution, and the rows of a root.
* `locSpec` — the specification of the layers.

## Main results

* `locStream_inj` — **the stream determines the arguments.**
* `resolve_isOk_iff` — when a resolution over the roots succeeds.
* `ownMatches_of_resolve` — **a root's matches do not depend on the other roots**, when the
  resolution succeeds.
* `buildInstances_map` — the rows of a root do not depend on the ids that are drawn.
-/

namespace Askl

open Keyed LittleEndian Utf8

/-! ### Arguments -/

/-- `LocSelector`.  The language bounds the length of a string. -/
structure LocSelector where
  filePath : Text
  line : ℕ
  project : Option Text
  line_pos : 0 < line
  line_lt : line < 2 ^ 64
  filePath_lt : (utf8 filePath).length < 2 ^ 63
  deriving DecidableEq

theorem one_lt_usize : 1 < 2 ^ 64 := by decide

/-- `str::parse` of a `usize`. -/
def parseUsize (t : Text) : Option {n : ℕ // n < 2 ^ 64} :=
  let value : Option ℕ := match t with
    | '+' :: ds => parseDigits ds
    | ds => parseDigits ds
  value.bind fun n => if h : n < 2 ^ 64 then some ⟨n, h⟩ else none

/-- `LocSelector::new`. -/
def LocSelector.new (positional : List Value) (named : NamedArgs)
    (hlength : ∀ v ∈ positional, (utf8 v.text).length < 2 ^ 63) : Except String LocSelector :=
  match positional, hlength with
  | path :: number :: _, hlength => do
    let _ ← path.asPlain
    let digits ← number.asPlain
    match parseUsize digits with
    | none => .error "loc line number must be an integer"
    | some line =>
      if hpos : 0 < line.val then do
        let project ← match named.lookup "project".toList with
          | none => pure none
          | some v => some <$> v.asPlain
        pure ⟨path.text, line.val, project, hpos, line.2, hlength path List.mem_cons_self⟩
      else .error "loc line number must be >= 1"
  | _, _ => .error "loc requires two positional arguments: file path and line number"

/-- What the key of the base hashes. -/
def locStream (sel : LocSelector) : Bytes :=
  tagBytes "loc" ++ (leBytes 8 (utf8 sel.filePath).length ++ (utf8 sel.filePath ++
    (leBytes 8 sel.line ++ match sel.project with
      | some p => 1 :: utf8 p
      | none => [0])))

/-- **The stream determines the arguments.** -/
theorem locStream_inj {sel sel' : LocSelector} (h : locStream sel = locStream sel') :
    sel = sel' := by
  have hpow : (2 : ℕ) ^ 63 < 256 ^ 8 := by decide
  obtain ⟨hlength, h⟩ := List.append_inj (List.append_cancel_left h) (by simp)
  have hlength := leBytes_inj_nat (sel.filePath_lt.trans hpow) (sel'.filePath_lt.trans hpow) hlength
  obtain ⟨hpath, h⟩ := List.append_inj h hlength
  obtain ⟨hline, h⟩ := List.append_inj h (by simp)
  have hline := leBytes_inj_nat sel.line_lt sel'.line_lt hline
  have hpath := utf8_injective hpath
  have hproject : sel.project = sel'.project := by
    cases hp : sel.project with
    | none => cases hp' : sel'.project with
      | none => rfl
      | some p' =>
        rw [hp, hp'] at h
        exact absurd (List.cons.inj h).1 (by decide)
    | some p => cases hp' : sel'.project with
      | none =>
        rw [hp, hp'] at h
        exact absurd (List.cons.inj h).1 (by decide)
      | some p' =>
        rw [hp, hp'] at h
        rw [utf8_injective (List.cons.inj h).2]
  cases sel
  cases sel'
  obtain rfl : _ = _ := hpath
  obtain rfl : _ = _ := hline
  obtain rfl : _ = _ := hproject
  rfl

/-- A location's stream begins with the tag of the verb, as no other verb's does. -/
def IsLocStream (stream : Bytes) : Prop := tagBytes "loc" <+: stream

theorem isLocStream_locStream (sel : LocSelector) : IsLocStream (locStream sel) :=
  List.prefix_append _ _

theorem not_isLocStream {tag rest : Bytes} (hlen : 3 ≤ tag.length)
    (htag : tag.take 3 ≠ tagBytes "loc") : ¬IsLocStream (tag ++ rest) := by
  intro h
  have htake := List.prefix_iff_eq_take.mp h
  rw [show (tagBytes "loc").length = 3 from rfl, List.take_append_of_le_length hlen] at htake
  exact htag htake.symm

/-- The stream of a composite is not that of a location. -/
theorem not_isLocStream_composite {σ ε : Type} (parts : List (PopulateSpec σ ε)) :
    ¬IsLocStream (compositeBaseStream parts) :=
  not_isLocStream (by decide) (by decide)

/-- The stream of a block is not that of a location. -/
theorem not_isLocStream_block (resolved : LabelResolutions) (ops : List EphemeralOp) :
    ¬IsLocStream (baseStream resolved ops) := by
  rw [baseStream, toUTF8_toList]
  exact not_isLocStream (by decide) (by decide)

/-! ### The resolution -/

/-- The tables that a resolution reads, and the server's opinion of paths.  Nothing in the
source fills `object_contents`. -/
structure LocDatabase where
  store : Store
  objectContents : ℤ → Option Bytes
  ltreeAccepts : Ltree → Bool

/-- How `loc` fails. -/
inductive LocError where
  | noFile (filePath : Text)
  | lineOutOfRange (line : ℕ) (filePath : Text)
  | contentsNotFound (objectId : ℤ)
  | queryContents
  | insertSymbols
  | offsetOutOfRange (kind : String) (offset : ℤ)
  | insertInstances
  deriving DecidableEq, Repr

/-- The message, without what the server adds to it. -/
def LocError.message : LocError → String
  | noFile filePath =>
    let path := String.ofList filePath
    s!"loc: no file matching '{path}' found in index"
  | lineOutOfRange line filePath =>
    let path := String.ofList filePath
    s!"loc: line {line} out of range for all files matching '{path}'"
  | contentsNotFound objectId => s!"File contents not found for object_id {objectId}"
  | queryContents => "Failed to query file contents"
  | insertSymbols => "Failed to batch insert eph symbols"
  | offsetOutOfRange kind offset => s!"{kind} offset {offset} exceeds i32 range"
  | insertInstances => "Failed to batch insert eph instances"

/-- The exact path, or a suffix on the boundary of a segment. -/
def matchesPath (path filesystemPath : Text) : Bool :=
  filesystemPath == path || like ('%' :: '/' :: escapeLike path) filesystemPath

/-- `FileMatch`. -/
structure FileMatch where
  fileId : ℤ
  projectId : ℤ
  lineStart : ℕ
  lineEnd : ℕ
  deriving DecidableEq, Repr

section Resolution

variable (db : LocDatabase) (sel : LocSelector)

/-- `find_objects_by_path_on`: the ids of objects and of their projects. -/
def findObjectsByPathOn (path : Text) (projectName : Option Text) (visibleLayers : List ℤ)
    (ephBranch : Bool) : List (ℤ × ℤ) :=
  ((join db.store.objects db.store.projects fun o p => p.id == o.row.projectId).filter fun r =>
    matchesPath path r.1.row.filesystemPath && visibleLayers.contains r.1.row.layer &&
      projectName.all (r.2.projectName == ·) && (!ephBranch || decide (r.1.row.layer < 0))).map
    fun r => (r.1.id, r.2.id)

/-- `get_file_contents_bytes_on`. -/
def getFileContentsBytesOn (objectId : ℤ) : Except LocError Bytes :=
  match db.store.objects.find? fun o => o.id == objectId && decide (0 < o.id) with
  | none => .error (.contentsNotFound objectId)
  | some o =>
    match (db.objectContents o.id).or
        ((db.store.contentStore.find? (·.contentHash == o.row.contentHash)).map (·.content)) with
    | none => .error .queryContents
    | some content => .ok content

/-- `get_file_contents_on`. -/
def getFileContentsOn (objectId : ℤ) : Except LocError Bytes :=
  (getFileContentsBytesOn db objectId).map fromUtf8Lossy

/-- The line in one of the files, if this has it. -/
def fileMatch (m : ℤ × ℤ) : Except LocError (Option FileMatch) := do
  let content ← getFileContentsOn db m.1
  pure ((lineToOffset content sel.line).map fun start =>
    ⟨m.1, m.2, start, nextLineOffset content start⟩)

/-- `resolve`: on ephemeral layers there may be no match. -/
def resolve (visibleLayers : List ℤ) (ephBranch : Bool) : Except LocError (List FileMatch) :=
  let found := findObjectsByPathOn db sel.filePath sel.project visibleLayers ephBranch
  if found.isEmpty then
    if ephBranch then .ok [] else .error (.noFile sel.filePath)
  else do
    let fileMatches ← found.mapM (fileMatch db sel)
    if fileMatches.reduceOption.isEmpty && !ephBranch then
      .error (.lineOutOfRange sel.line sel.filePath)
    else pure fileMatches.reduceOption

/-! ### The rows of a root -/

/-- `SYMBOL_TYPE_CONTENT`. -/
def symbolTypeContent : ℤ := 9

/-- The name of the symbol of a location. -/
def symName : Text := "loc:".toList ++ sel.filePath ++ ':' :: (toString sel.line).toList

/-- The symbol of a match. -/
def locSymbol (m : FileMatch) : EphSymbolRow where
  name := symName sel
  path := (symbolPathAndLeaf (symName sel) symbolTypeContent).1
  projectId := m.projectId
  symbolType := symbolTypeContent
  scope := none
  leafName := (symbolPathAndLeaf (symName sel) symbolTypeContent).2

/-- The instance of a match and of its symbol. -/
def locInstance (m : FileMatch) (symbolId : ℤ) : EphInstanceRow :=
  ⟨symbolId, m.fileId, m.lineStart, m.lineEnd, instanceTypeDefinition⟩

/-- Rows of `symbols`, with ids that are drawn for them. -/
def drawnSymbols (txn : LayerTxn) (rows : List EphSymbolRow) : List NewSymbol :=
  rows.zipIdx.map fun p => ⟨txn.nextSymbolId - p.2, p.1.name, p.1.path, p.1.projectId,
    p.1.symbolType, p.1.scope, p.1.leafName, txn.layerId⟩

/-- `insert_symbols_scoped`: the rows of a project. -/
def insertSymbolsScoped (rows : List EphSymbolRow) (projectId : ℤ) (txn : LayerTxn) :
    Except LocError (List ℤ × LayerTxn) :=
  if rows.isEmpty then .ok ([], txn)
  else
    let own := rows.filter (·.projectId == projectId)
    if own.all fun r => db.ltreeAccepts r.path then
      .ok ((drawnSymbols txn own).map (·.id), { txn with
        symbols := txn.symbols ++ drawnSymbols txn own
        nextSymbolId := txn.nextSymbolId - own.length })
    else .error .insertSymbols

/-- `try_offsets`: the first that is no `i32`, if there is one. -/
def tryOffsets (kind : String) (offsets : List ℤ) : Except LocError Unit :=
  match offsets.find? fun k => !decide (Fits 3 k) with
  | none => .ok ()
  | some k => .error (.offsetOutOfRange kind k)

/-- `int4range` of the offsets. -/
def offsetRange (start stop : ℤ) : Except LocError Int4range :=
  match Int4range.of start stop with
  | none => .error .insertInstances
  | some range => .ok range

/-- Rows of `symbol_instances`, with ids that are drawn for them. -/
def drawnInstances (txn : LayerTxn) (rows : List (EphInstanceRow × Int4range)) :
    List SymbolInstance :=
  rows.zipIdx.map fun p => ⟨txn.nextInstanceId - p.2, p.1.1.symbolId, p.1.1.objectId, p.1.2,
    p.1.1.instanceType, txn.layerId⟩

/-- `insert_instances_scoped`: the rows whose object is in the project.  Each has a symbol of
its own, so that there is no conflict to ignore. -/
def insertInstancesScoped (rows : List EphInstanceRow) (projectId : ℤ) (txn : LayerTxn) :
    Except LocError LayerTxn :=
  if rows.isEmpty then .ok txn
  else do
    tryOffsets "start" (rows.map (·.start))
    tryOffsets "end" (rows.map (·.stop))
    let own := (join rows db.store.objects fun r o =>
      o.id == r.objectId && o.row.projectId == projectId).map (·.1)
    let ranges ← own.mapM fun r => offsetRange r.start r.stop
    pure { txn with
      instances := txn.instances ++ drawnInstances txn (own.zip ranges)
      nextInstanceId := txn.nextInstanceId - own.length }

/-- `build_instances`: the symbols and the instances of the matches in the root's project. -/
def buildInstances (fileMatches : List FileMatch) (root : RootLayer) (txn : LayerTxn) :
    Except LocError LayerTxn := do
  let rootMatches := fileMatches.filter (·.projectId == root.projectId)
  let (symbolIds, txn) ← insertSymbolsScoped db (rootMatches.map (locSymbol sel)) root.projectId txn
  insertInstancesScoped db (List.zipWith locInstance rootMatches symbolIds) root.projectId txn

/-- `layer_spec`: the base resolves over all roots, an atom over its content layer, and the
supplement continues the chain.  The matches that the bases of a statement share are what
each of them would find. -/
def locSpec (sha256 : Bytes → Hash32) (eph : EphContext) : PopulateSpec LayerTxn LocError where
  baseHash := sha256 (locStream sel)
  basePopulate root txn := do
    let fileMatches ← resolve db sel eph.rootIds false
    let txn ← buildInstances db sel fileMatches root txn
    pure (false, txn)
  supplementPopulate _ _ txn := .ok (false, txn)
  perLayerPopulate := some fun root layerId _ txn => do
    let fileMatches ← resolve db sel [layerId] true
    let txn ← buildInstances db sel fileMatches root txn
    pure (false, txn)
  supplementExtra := ⟨[], ByteVec.nil_lt⟩

variable {db sel}

/-! ### What a resolution finds -/

/-- A resolution over roots finds a line, and can read all the files. -/
theorem resolve_eq_ok_iff {visible : List ℤ} {fileMatches : List FileMatch} :
    resolve db sel visible false = .ok fileMatches ↔
      ∃ os, (findObjectsByPathOn db sel.filePath sel.project visible false).mapM
        (fileMatch db sel) = .ok os ∧ os.reduceOption ≠ [] ∧ os.reduceOption = fileMatches := by
  unfold resolve
  generalize findObjectsByPathOn db sel.filePath sel.project visible false = found
  cases found with
  | nil =>
    constructor
    · intro h
      cases h
    · rintro ⟨os, hos, hne, -⟩
      obtain rfl := Fallible.pure_eq_ok.mp hos
      exact absurd rfl hne
  | cons m found =>
    dsimp only
    rw [if_neg (by simp), Fallible.bind_eq_ok]
    refine exists_congr fun os => and_congr_right fun _ => ?_
    rw [Bool.not_false, Bool.and_true]
    split
    · next hnil => exact iff_of_false (fun h => by cases h) fun h => h.1 (List.isEmpty_iff.mp hnil)
    · next hne =>
      exact Fallible.pure_eq_ok.trans (and_iff_right (mt List.isEmpty_iff.mpr hne)).symm

theorem reduceOption_of_forall₂ {found : List (ℤ × ℤ)} {os : List (Option FileMatch)}
    (h : List.Forall₂ (fun m o => fileMatch db sel m = .ok o) found os) :
    os.reduceOption = found.filterMap fun m => (fileMatch db sel m).toOption.join := by
  induction h with
  | nil => rfl
  | @cons m o found os hm _ ih =>
    rw [List.filterMap_cons, hm, ← ih]
    cases o <;> rfl

/-- A resolution finds the lines in the files that it can read. -/
theorem resolve_eq_ok {visible : List ℤ} {fileMatches : List FileMatch}
    (h : resolve db sel visible false = .ok fileMatches) :
    fileMatches = (findObjectsByPathOn db sel.filePath sel.project visible false).filterMap
      fun m => (fileMatch db sel m).toOption.join := by
  obtain ⟨os, hos, -, rfl⟩ := resolve_eq_ok_iff.mp h
  exact reduceOption_of_forall₂ (Fallible.mapM_eq_ok.mp hos)

/-- The matches on a root. -/
def ownMatches (db : LocDatabase) (sel : LocSelector) (root : RootLayer) : List FileMatch :=
  (findObjectsByPathOn db sel.filePath sel.project [root.id] false).filterMap
    fun m => (fileMatch db sel m).toOption.join

/-- The objects of a root's project are those that are found on the root. -/
theorem filter_findObjectsByPathOn (h : db.store.Filed) {root : RootLayer}
    (hroot : root ∈ db.store.loadRootLayers) {visible : List ℤ} (hvisible : root.id ∈ visible)
    (path : Text) (projectName : Option Text) :
    (findObjectsByPathOn db path projectName visible false).filter (·.2 == root.projectId) =
      findObjectsByPathOn db path projectName [root.id] false := by
  rw [findObjectsByPathOn, findObjectsByPathOn, List.filter_map, List.filter_filter]
  refine congrArg _ (List.filter_congr fun r hr => ?_)
  obtain ⟨ho, hp, hon⟩ := mem_join.mp hr
  have hproject : r.2.id = r.1.row.projectId := beq_iff_eq.mp hon
  have hiff : (r.2.id = root.projectId ∧ r.1.row.layer ∈ visible) ↔ r.1.row.layer = root.id := by
    rw [hproject]
    constructor
    · rintro ⟨hid, -⟩
      exact h.layer_eq hroot ho hid
    · intro hlayer
      exact ⟨h.projectId_eq hroot ho hlayer, hlayer ▸ hvisible⟩
  rw [Bool.eq_iff_iff]
  simp only [Function.comp_apply, Bool.and_eq_true, beq_iff_eq, List.contains_iff_mem,
    List.mem_singleton, ← hiff]
  tauto

theorem ids_of_fileMatch {m : ℤ × ℤ} {fm : FileMatch}
    (h : (fileMatch db sel m).toOption.join = some fm) : fm.fileId = m.1 ∧ fm.projectId = m.2 := by
  cases hm : fileMatch db sel m with
  | error e =>
    rw [hm] at h
    cases h
  | ok o =>
    rw [hm] at h
    obtain rfl : o = some fm := h
    obtain ⟨content, -, h⟩ := Fallible.bind_eq_ok.mp hm
    obtain ⟨start, -, rfl⟩ := Option.map_eq_some_iff.mp (Fallible.pure_eq_ok.mp h)
    exact ⟨rfl, rfl⟩

/-- **A root's matches do not depend on the other roots**, when the resolution succeeds. -/
theorem ownMatches_of_resolve (h : db.store.Filed) {root : RootLayer}
    (hroot : root ∈ db.store.loadRootLayers) {visible : List ℤ} (hvisible : root.id ∈ visible)
    {fileMatches : List FileMatch} (hresolve : resolve db sel visible false = .ok fileMatches) :
    fileMatches.filter (·.projectId == root.projectId) = ownMatches db sel root := by
  rw [resolve_eq_ok hresolve, ownMatches, ← filter_findObjectsByPathOn h hroot hvisible,
    List.filter_filterMap, List.filterMap_filter]
  refine List.filterMap_congr fun m _ => ?_
  cases hfm : (fileMatch db sel m).toOption.join with
  | none => simp
  | some fm =>
    rw [Option.filter_some, (ids_of_fileMatch hfm).2]

/-- The path matches files on the layers, all of which can be read, and one has the line. -/
structure Locatable (db : LocDatabase) (sel : LocSelector) (visible : List ℤ) : Prop where
  readable : ∀ m ∈ findObjectsByPathOn db sel.filePath sel.project visible false,
    ∃ content, getFileContentsOn db m.1 = .ok content
  inRange : ∃ m ∈ findObjectsByPathOn db sel.filePath sel.project visible false,
    ∃ content, getFileContentsOn db m.1 = .ok content ∧
      (lineToOffset content sel.line).isSome = true

theorem fileMatch_eq_ok {m : ℤ × ℤ} {o : Option FileMatch} (h : fileMatch db sel m = .ok o) :
    ∃ content, getFileContentsOn db m.1 = .ok content ∧
      o.isSome = (lineToOffset content sel.line).isSome := by
  obtain ⟨content, hcontent, h⟩ := Fallible.bind_eq_ok.mp h
  refine ⟨content, hcontent, ?_⟩
  rw [← Fallible.pure_eq_ok.mp h, Option.isSome_map]

/-- **When a resolution over roots succeeds.** -/
theorem resolve_isOk_iff {visible : List ℤ} :
    (∃ fileMatches, resolve db sel visible false = .ok fileMatches) ↔
      Locatable db sel visible := by
  constructor
  · rintro ⟨fileMatches, h⟩
    obtain ⟨os, hos, hne, -⟩ := resolve_eq_ok_iff.mp h
    obtain ⟨fm, hfm⟩ := List.exists_mem_of_ne_nil _ hne
    obtain ⟨m, hm, hok⟩ := Fallible.exists_of_mem_mapM hos (List.reduceOption_mem_iff.mp hfm)
    obtain ⟨content, hcontent, hline⟩ := fileMatch_eq_ok hok
    refine ⟨fun m' hm' => ?_, m, hm, content, hcontent, hline.symm⟩
    obtain ⟨o', -, hok'⟩ := Fallible.exists_mem_mapM hos hm'
    obtain ⟨content', hcontent', -⟩ := fileMatch_eq_ok hok'
    exact ⟨content', hcontent'⟩
  · rintro ⟨hreadable, m, hm, content, hcontent, hline⟩
    have hread : ∀ m' ∈ findObjectsByPathOn db sel.filePath sel.project visible false,
        fileMatch db sel m' = .ok (fileMatch db sel m').toOption.join := by
      intro m' hm'
      obtain ⟨content', hcontent'⟩ := hreadable m' hm'
      rw [fileMatch, hcontent']
      rfl
    have hos := Fallible.mapM_of_ok hread
    refine ⟨_, resolve_eq_ok_iff.mpr ⟨_, hos, ?_, rfl⟩⟩
    obtain ⟨o, ho, hok⟩ := Fallible.exists_mem_mapM hos hm
    obtain ⟨content', hcontent', hsome⟩ := fileMatch_eq_ok hok
    obtain rfl := Except.ok.inj (hcontent.symm.trans hcontent')
    rw [hline] at hsome
    obtain ⟨fm, rfl⟩ := Option.isSome_iff_exists.mp hsome
    exact List.ne_nil_of_mem (List.reduceOption_mem_iff.mpr ho)

/-! ### What the rows of a root are -/

/-- The row of a match in a project. -/
def locRow (sel : LocSelector) (projectId : ℤ) (m : FileMatch) (range : Int4range) : SelectedRow :=
  ⟨symName sel, (symbolPathAndLeaf (symName sel) symbolTypeContent).1, projectId,
    symbolTypeContent, (symbolPathAndLeaf (symName sel) symbolTypeContent).2, m.fileId, range,
    instanceTypeDefinition⟩

/-- The rows of the matches in a project, or why they cannot be inserted. -/
def shareRows (db : LocDatabase) (sel : LocSelector) (own : List FileMatch) (projectId : ℤ) :
    Except LocError (List SelectedRow) :=
  if own.isEmpty then .ok []
  else if db.ltreeAccepts (symbolPathAndLeaf (symName sel) symbolTypeContent).1 then do
    tryOffsets "start" (own.map fun m => (m.lineStart : ℤ))
    tryOffsets "end" (own.map fun m => (m.lineEnd : ℤ))
    ((join own db.store.objects fun m o =>
      o.id == m.fileId && o.row.projectId == projectId).map (·.1)).mapM fun m =>
        (offsetRange m.lineStart m.lineEnd).map (locRow sel projectId m)
  else .error .insertSymbols

section Share

variable {own : List FileMatch} {projectId : ℤ}

theorem insertSymbolsScoped_own (hne : own ≠ []) (hown : ∀ m ∈ own, m.projectId = projectId)
    (txn : LayerTxn) :
    insertSymbolsScoped db (own.map (locSymbol sel)) projectId txn =
      if db.ltreeAccepts (symbolPathAndLeaf (symName sel) symbolTypeContent).1 then
        .ok ((drawnSymbols txn (own.map (locSymbol sel))).map (·.id), { txn with
          symbols := txn.symbols ++ drawnSymbols txn (own.map (locSymbol sel))
          nextSymbolId := txn.nextSymbolId - own.length })
      else .error .insertSymbols := by
  have hfilter : (own.map (locSymbol sel)).filter (·.projectId == projectId) =
      own.map (locSymbol sel) := by
    rw [List.filter_eq_self]
    intro r hr
    obtain ⟨m, hm, rfl⟩ := List.mem_map.mp hr
    exact beq_iff_eq.mpr (hown m hm)
  have hall : (own.map (locSymbol sel)).all (fun r => db.ltreeAccepts r.path) =
      db.ltreeAccepts (symbolPathAndLeaf (symName sel) symbolTypeContent).1 := by
    obtain ⟨m, own, rfl⟩ := List.exists_cons_of_ne_nil hne
    rw [List.all_map, Bool.eq_iff_iff, List.all_eq_true]
    exact ⟨fun h => h m List.mem_cons_self, fun h _ _ => h⟩
  rw [insertSymbolsScoped, if_neg (by simpa using hne)]
  simp only [hfilter, hall, List.length_map]

/-- What a drawn symbol is. -/
theorem of_mem_drawnSymbols (hown : ∀ m ∈ own, m.projectId = projectId) {txn : LayerTxn}
    {y : NewSymbol} (hy : y ∈ drawnSymbols txn (own.map (locSymbol sel))) (i : SymbolInstance) :
    selectedRow y i = ⟨symName sel, (symbolPathAndLeaf (symName sel) symbolTypeContent).1,
      projectId, symbolTypeContent, (symbolPathAndLeaf (symName sel) symbolTypeContent).2,
      i.objectId, i.offsetRange, i.instanceType⟩ := by
  obtain ⟨⟨r, k⟩, hr, rfl⟩ := List.mem_map.mp hy
  obtain ⟨m, hm, rfl⟩ := List.mem_map.mp (List.fst_mem_of_mem_zipIdx hr)
  rw [← hown m hm]
  rfl

/-- The rows of drawn instances whose symbols are there, and alike. -/
theorem joinedRows_drawnInstances {pairs : List (FileMatch × ℤ)} {ranges : List Int4range}
    {symbols : List NewSymbol} {txn : LayerTxn}
    (hsymbol : ∀ p ∈ pairs, ∃ y ∈ symbols, y.id = p.2)
    (hrow : ∀ y ∈ symbols, ∀ i : SymbolInstance, selectedRow y i =
      ⟨symName sel, (symbolPathAndLeaf (symName sel) symbolTypeContent).1, projectId,
        symbolTypeContent, (symbolPathAndLeaf (symName sel) symbolTypeContent).2, i.objectId,
        i.offsetRange, i.instanceType⟩) :
    joinedRows symbols
        (drawnInstances txn ((pairs.map fun p => locInstance p.1 p.2).zip ranges)) =
      List.zipWith (fun p => locRow sel projectId p.1) pairs ranges := by
  have hmap : drawnInstances txn ((pairs.map fun p => locInstance p.1 p.2).zip ranges) =
      (pairs.zip ranges).zipIdx.map fun q => ⟨txn.nextInstanceId - q.2, q.1.1.2, q.1.1.1.fileId,
        q.1.2, instanceTypeDefinition, txn.layerId⟩ := by
    rw [drawnInstances, List.zip_map_left, List.zipIdx_map, List.map_map]
    rfl
  rw [joinedRows_eq (fun i hi => ?_) fun y hy i _ => hrow y hy i, hmap, List.map_map,
    ← List.map_uncurry_zip_eq_zipWith, ← List.zipIdx_map_fst 0 (pairs.zip ranges), List.map_map]
  · rw [List.zipIdx_map_fst]
    rfl
  · rw [hmap] at hi
    obtain ⟨⟨q, k⟩, hq, rfl⟩ := List.mem_map.mp hi
    exact hsymbol q.1 (List.of_mem_zip (List.fst_mem_of_mem_zipIdx hq)).1

/-- The rows of instances whose symbols are there, and alike. -/
theorem insertInstancesScoped_map (hne : own ≠ []) {ids : List ℤ} (hids : ids.length = own.length)
    {txn : LayerTxn} (hinstances : txn.instances = [])
    (hsymbol : ∀ id ∈ ids, ∃ y ∈ txn.symbols, y.id = id)
    (hrow : ∀ y ∈ txn.symbols, ∀ i : SymbolInstance, selectedRow y i =
      ⟨symName sel, (symbolPathAndLeaf (symName sel) symbolTypeContent).1, projectId,
        symbolTypeContent, (symbolPathAndLeaf (symName sel) symbolTypeContent).2, i.objectId,
        i.offsetRange, i.instanceType⟩) :
    (insertInstancesScoped db (List.zipWith locInstance own ids) projectId txn).map
        (fun txn => joinedRows txn.symbols txn.instances) = (do
      tryOffsets "start" (own.map fun m => (m.lineStart : ℤ))
      tryOffsets "end" (own.map fun m => (m.lineEnd : ℤ))
      ((join own db.store.objects fun m o =>
        o.id == m.fileId && o.row.projectId == projectId).map (·.1)).mapM fun m =>
          (offsetRange m.lineStart m.lineEnd).map (locRow sel projectId m)) := by
  -- both sides are about the matches paired with their symbols
  obtain ⟨pairs, hpairs⟩ : ∃ pairs, own.zip ids = pairs := ⟨_, rfl⟩
  have hfst : own = pairs.map (·.1) := by rw [← hpairs, List.map_fst_zip hids.ge]
  have hzip : List.zipWith locInstance own ids = pairs.map fun p => locInstance p.1 p.2 := by
    rw [← hpairs, ← List.map_uncurry_zip_eq_zipWith]
    rfl
  obtain ⟨joined, hjoined⟩ : ∃ joined, (join pairs db.store.objects fun p o =>
    o.id == p.1.fileId && o.row.projectId == projectId).map (·.1) = joined := ⟨_, rfl⟩
  have hinst : (join (pairs.map fun p => locInstance p.1 p.2) db.store.objects fun r o =>
      o.id == r.objectId && o.row.projectId == projectId).map (·.1) =
        joined.map fun p => locInstance p.1 p.2 := by
    rw [join_map_left, ← hjoined, List.map_map, List.map_map]
    rfl
  have hmatch : (join (pairs.map (·.1)) db.store.objects fun m o =>
      o.id == m.fileId && o.row.projectId == projectId).map (·.1) = joined.map (·.1) := by
    rw [join_map_left, ← hjoined, List.map_map, List.map_map]
    rfl
  have hsymbols : ∀ p ∈ joined, ∃ y ∈ txn.symbols, y.id = p.2 := by
    intro p hp
    rw [← hjoined] at hp
    obtain ⟨q, hq, rfl⟩ := List.mem_map.mp hp
    exact hsymbol _ (List.of_mem_zip (hpairs ▸ (mem_join.mp hq).1)).2
  have hrows : (joined.map (·.1)).mapM (fun m =>
      (offsetRange m.lineStart m.lineEnd).map (locRow sel projectId m)) =
        ((joined.map fun p => locInstance p.1 p.2).mapM fun r => offsetRange r.start r.stop).map
          (List.zipWith (fun p => locRow sel projectId p.1) joined) := by
    rw [List.mapM_map, List.mapM_map, ← Fallible.mapM_map_zipWith]
    rfl
  have hnil : ¬(pairs.map fun p => locInstance p.1 p.2).isEmpty = true := by
    rw [List.isEmpty_iff, List.map_eq_nil_iff]
    rintro rfl
    exact hne hfst
  rw [hzip, insertInstancesScoped, if_neg hnil, hfst, hmatch, hrows, List.map_map, List.map_map,
    List.map_map, List.map_map, hinst]
  show Except.map _ (tryOffsets "start" (pairs.map fun p => (p.1.lineStart : ℤ)) >>= fun _ =>
    tryOffsets "end" (pairs.map fun p => (p.1.lineEnd : ℤ)) >>= fun _ => _) =
      (tryOffsets "start" (pairs.map fun p => (p.1.lineStart : ℤ)) >>= fun _ =>
        tryOffsets "end" (pairs.map fun p => (p.1.lineEnd : ℤ)) >>= fun _ => _)
  cases tryOffsets "start" (pairs.map fun p => (p.1.lineStart : ℤ)) with
  | error e => rfl
  | ok _ =>
    cases tryOffsets "end" (pairs.map fun p => (p.1.lineEnd : ℤ)) with
    | error e => rfl
    | ok _ =>
      show Except.map _ (((joined.map fun p => locInstance p.1 p.2).mapM fun r =>
        offsetRange r.start r.stop) >>= fun _ => _) = Except.map _ _
      cases (joined.map fun p => locInstance p.1 p.2).mapM fun r => offsetRange r.start r.stop with
      | error e => rfl
      | ok ranges =>
        show Except.ok (joinedRows txn.symbols (txn.instances ++ _)) = Except.ok _
        rw [hinstances, List.nil_append, joinedRows_drawnInstances hsymbols hrow]

/-- **The rows of a root do not depend on the ids that are drawn.** -/
theorem buildInstances_map (fileMatches : List FileMatch) (root : RootLayer) {txn : LayerTxn}
    (hsymbols : txn.symbols = []) (hinstances : txn.instances = []) :
    (buildInstances db sel fileMatches root txn).map
        (fun txn => joinedRows txn.symbols txn.instances) =
      shareRows db sel (fileMatches.filter (·.projectId == root.projectId)) root.projectId := by
  have hown : ∀ m ∈ fileMatches.filter (·.projectId == root.projectId),
      m.projectId = root.projectId := fun m hm => by simpa using (List.mem_filter.mp hm).2
  unfold buildInstances
  dsimp only
  generalize fileMatches.filter (·.projectId == root.projectId) = own at hown
  rcases eq_or_ne own [] with rfl | hne
  · show Except.ok (joinedRows txn.symbols txn.instances) = Except.ok []
    rw [hsymbols, hinstances]
    rfl
  have hempty : own.isEmpty ≠ true := by simpa using hne
  rw [insertSymbolsScoped_own hne hown, shareRows, if_neg hempty]
  by_cases haccepts : db.ltreeAccepts (symbolPathAndLeaf (symName sel) symbolTypeContent).1 = true
  · rw [if_pos haccepts, if_pos haccepts]
    refine insertInstancesScoped_map hne (by simp [drawnSymbols]) hinstances ?_ ?_
    · intro id hid
      obtain ⟨y, hy, rfl⟩ := List.mem_map.mp hid
      exact ⟨y, List.mem_append_right _ hy, rfl⟩
    · intro y hy i
      rw [hsymbols, List.nil_append] at hy
      exact of_mem_drawnSymbols hown hy i
  · rw [if_neg haccepts, if_neg haccepts]
    rfl

end Share

end Resolution

end Askl
