import Askl.Store.Tables
import Mathlib.Algebra.Group.Int.Defs

/-!
# The rows of an upload

How a chunk of symbols or objects, as it comes from the wire, is checked and turned into
rows.  Nothing here touches the tables.

## Main definitions

* `UploadSymbol`, `UploadObject`, `UploadProject` — the messages of `index.proto`.
* `normalizeFullPath`, `symbolPathAndLeaf` — paths and names as they are stored.
* `computeSymbolId` — the global id of a symbol, from its project and its local id.
* `buildSymbols`, `buildObjects`, `buildSymbolInstances`, `buildSymbolRefs` — the rows.
-/

namespace Askl

/-! ### Messages -/

/-- `Symbol`. -/
structure UploadSymbol where
  localId : ℤ
  name : Text
  type : ℤ
  scope : ℤ
  deriving DecidableEq, Repr

/-- `SymbolInstance`. -/
structure UploadInstance where
  symbolLocalId : ℤ
  instanceType : ℤ
  startOffset : ℤ
  endOffset : ℤ
  deriving DecidableEq, Repr

/-- `SymbolRef`. -/
structure UploadRef where
  toSymbolLocalId : ℤ
  fromOffsetStart : ℤ
  fromOffsetEnd : ℤ
  deriving DecidableEq, Repr

/-- `Object`. -/
structure UploadObject where
  localId : ℤ
  modulePath : Text
  filesystemPath : Text
  filetype : Text
  content : Bytes
  contentHash : Text
  symbolInstances : List UploadInstance
  refs : List UploadRef
  deriving DecidableEq, Repr

/-- `Project`, the payload of every request but the contents. -/
structure UploadProject where
  projectName : Text
  rootPath : Text
  objects : List UploadObject
  symbols : List UploadSymbol
  deriving DecidableEq, Repr

/-- `ObjectContent`. -/
structure ObjectContent where
  contentHash : Text
  content : Bytes
  deriving DecidableEq, Repr

/-! ### Names and paths -/

/-- `char::is_whitespace`. -/
def isWhitespace (c : Char) : Bool :=
  (9 ≤ c.toNat && c.toNat ≤ 13) || c.toNat == 0x20 || c.toNat == 0x85 || c.toNat == 0xa0 ||
    c.toNat == 0x1680 || (0x2000 ≤ c.toNat && c.toNat ≤ 0x200a) || c.toNat == 0x2028 ||
    c.toNat == 0x2029 || c.toNat == 0x202f || c.toNat == 0x205f || c.toNat == 0x3000

/-- `str::trim`. -/
def trim (t : Text) : Text := ((t.dropWhile isWhitespace).reverse.dropWhile isWhitespace).reverse

/-- `normalize_posix`. -/
def normalizePosix (path : Text) : Text := path.map fun c => if c == '\\' then '/' else c

/-- One component of a path, over the stack of those before it. -/
def pushComponent (stack : List Text) (part : Text) : List Text :=
  if part = [] ∨ part = ['.'] then stack
  else if part = ['.', '.'] then stack.dropLast
  else stack ++ [part]

/-- `normalize_full_path`. -/
def normalizeFullPath (path : Text) : Text :=
  let normalized := normalizePosix path
  let stack := (normalized.splitOn '/').foldl pushComponent []
  let result := ['/'].intercalate stack
  let rooted := if normalized.head? = some '/' then '/' :: result else result
  if rooted = [] then ['/'] else rooted

/-- `is_leaf_char`. -/
def isLeafChar (c : Char) : Bool := c.isAlphanum || c == '_'

/-- `clean_and_split_string`. -/
def cleanAndSplitString (input : Text) : List Text :=
  let cleaned := input.filter fun c =>
    !(['*', '[', ']', '{', '}', ',', '@', '-', ' ', '(', ')'].contains c)
  (cleaned.splitOnP fun c => c == '.' || c == '/' || c == ':').filter fun t => !t.isEmpty

/-- `normalize_symbol_tokens`. -/
def normalizeSymbolTokens (input : Text) : List Text :=
  (cleanAndSplitString input).filterMap fun token =>
    let cleaned := token.filter isLeafChar
    if cleaned.isEmpty then none else some cleaned

/-- The label of a name without any. -/
def unknownLabel : Text := ['u', 'n', 'k', 'n', 'o', 'w', 'n']

/-- `symbol_name_to_path`. -/
def symbolNameToPath (input : Text) : Ltree :=
  let tokens := normalizeSymbolTokens input
  if tokens.isEmpty then [unknownLabel] else tokens

/-- `dot_is_separator`: a dot is part of the name of a file (2) or a directory (4). -/
def dotIsSeparator (symbolType : ℤ) : Bool := symbolType != 2 && symbolType != 4

/-- `symbol_path_and_leaf`. -/
def symbolPathAndLeaf (name : Text) (symbolType : ℤ) : Ltree × Text :=
  let path := if dotIsSeparator symbolType then symbolNameToPath name
    else symbolNameToPath (name.map fun c => if c == '.' then '_' else c)
  (path, path.getLastD unknownLabel)

/-! ### Ids and types -/

/-- `compute_symbol_id`, on 64-bit integers. -/
def computeSymbolId (projectId localId : ℤ) : Except UploadError ℤ :=
  if projectId ≤ 0 then .error (.invalid s!"project_id {projectId} must be positive")
  else if localId < 0 ∨ 2 ^ 32 ≤ localId then
    .error (.invalid s!"symbol local_id {localId} is out of range [0, 2^32)")
  else .ok (BitVec.ofInt 64 projectId <<< 32 ||| BitVec.ofInt 64 localId).toInt

/-- `project_symbol_id_base`. -/
def projectSymbolIdBase (projectId : ℤ) : ℤ := (BitVec.ofInt 64 projectId <<< 32).toInt

/-- `validate_type`. -/
def validateType (value : ℤ) (valid : List ℤ) (label : String) : Except UploadError ℤ :=
  if valid.contains value then .ok value else .error (.invalid s!"invalid {label} {value}")

/-- `validate_symbol_type`: function, file, module, directory, type, data, macro, field. -/
def validateSymbolType (protoType : ℤ) : Except UploadError ℤ :=
  validateType protoType [1, 2, 3, 4, 5, 6, 7, 8] "symbol type"

/-- `validate_instance_type`: definition, declaration, expansion, sentinel, containment,
source, header, build, file, documentation. -/
def validateInstanceType (protoType : ℤ) : Except UploadError ℤ :=
  validateType protoType [1, 2, 3, 4, 5, 6, 7, 8, 9, 10] "instance type"

/-- `INSTANCE_TYPE_DEFINITION`. -/
def instanceTypeDefinition : ℤ := 1

/-! ### Symbols -/

/-- The row of one symbol. -/
def buildSymbol (projectId rootLayerId : ℤ) (symbol : UploadSymbol) :
    Except UploadError NewSymbol := do
  let id ← computeSymbolId projectId symbol.localId
  let symbolType ← validateSymbolType symbol.type
  let pathAndLeaf := symbolPathAndLeaf symbol.name symbolType
  pure
    { id := id
      name := symbol.name
      symbolPath := pathAndLeaf.1
      projectId := projectId
      symbolType := symbolType
      symbolScope := if symbol.scope = 0 then none else some symbol.scope
      leafName := pathAndLeaf.2
      layer := rootLayerId }

/-- The loop of `build_symbols`, past the local ids it has seen. -/
def buildSymbolsFrom (projectId rootLayerId : ℤ) :
    List ℤ → List UploadSymbol → Except UploadError (List NewSymbol)
  | _, [] => pure []
  | seen, symbol :: symbols =>
    if seen.contains symbol.localId then
      .error (.invalid s!"duplicate symbol local_id {symbol.localId}")
    else do
      let row ← buildSymbol projectId rootLayerId symbol
      let rows ← buildSymbolsFrom projectId rootLayerId (symbol.localId :: seen) symbols
      pure (row :: rows)

/-- `build_symbols`. -/
def buildSymbols (projectId rootLayerId : ℤ) (symbols : List UploadSymbol) :
    Except UploadError (List NewSymbol) :=
  buildSymbolsFrom projectId rootLayerId [] symbols

/-! ### Objects -/

/-- `ObjectInsert`. -/
structure ObjectInsert where
  localId : ℤ
  content : Option Bytes
  row : NewObject
  deriving DecidableEq, Repr

section Objects

-- `hash_bytes`, the digest of a content in lower-case hex
variable (hashBytes : Bytes → Text)

/-- The content an object brings along, and its hash: an object that names a hash and has no
content refers to the content store. -/
def objectContent (object : UploadObject) : Except UploadError (Option Bytes × Text) :=
  if !object.contentHash.isEmpty && object.content.isEmpty then .ok (none, object.contentHash)
  else
    let computed := hashBytes object.content
    if !object.contentHash.isEmpty && object.contentHash != computed then
      let sent := String.ofList object.contentHash
      let found := String.ofList computed
      .error (.invalid
        s!"content_hash mismatch for object {object.localId}: client sent {sent} but computed {found}")
    else .ok (some object.content, computed)

/-- The row of one object. -/
def buildObject (projectId rootLayerId : ℤ) (object : UploadObject) :
    Except UploadError ObjectInsert :=
  let filesystemPathRaw := trim object.filesystemPath
  if filesystemPathRaw.isEmpty then
    .error (.invalid s!"filesystem_path is required for object {object.localId}")
  else if filesystemPathRaw.head? ≠ some '/' then
    .error (.invalid s!"filesystem_path must be an absolute path for object {object.localId}")
  else do
    let content ← objectContent hashBytes object
    pure
      { localId := object.localId
        content := content.1
        row :=
          { projectId := projectId
            modulePath := object.modulePath
            filesystemPath := normalizeFullPath filesystemPathRaw
            filetype := object.filetype
            contentHash := content.2
            layer := rootLayerId } }

/-- The loop of `build_objects`, past the local ids it has seen. -/
def buildObjectsFrom (projectId rootLayerId : ℤ) :
    List ℤ → List UploadObject → Except UploadError (List ObjectInsert)
  | _, [] => pure []
  | seen, object :: objects =>
    if seen.contains object.localId then
      .error (.invalid s!"duplicate object local_id {object.localId}")
    else do
      let insert ← buildObject hashBytes projectId rootLayerId object
      let inserts ← buildObjectsFrom projectId rootLayerId (object.localId :: seen) objects
      pure (insert :: inserts)

/-- `build_objects`. -/
def buildObjects (projectId rootLayerId : ℤ) (objects : List UploadObject) :
    Except UploadError (List ObjectInsert) :=
  buildObjectsFrom hashBytes projectId rootLayerId [] objects

end Objects

/-! ### Instances and references -/

/-- The ids of the objects of a chunk, by local id. -/
abbrev ObjectMap := List (ℤ × ℤ)

/-- `resolve_object_id`. -/
def resolveObjectId (map : ObjectMap) (localId : ℤ) : Except UploadError ℤ :=
  match map.lookup localId with
  | some id => .ok id
  | none => .error (.invalid s!"missing object mapping for local_id {localId}")

/-- `NewSymbolInstance`, with the bounds of its range. -/
structure NewSymbolInstance where
  symbol : ℤ
  objectId : ℤ
  startOffset : ℤ
  endOffset : ℤ
  instanceType : ℤ
  layer : ℤ
  deriving DecidableEq, Repr

/-- `NewSymbolRef`, with the bounds of its range. -/
structure NewSymbolRef where
  toSymbol : ℤ
  fromObject : ℤ
  fromOffsetStart : ℤ
  fromOffsetEnd : ℤ
  layer : ℤ
  deriving DecidableEq, Repr

/-- The row of one instance; an instance without a type is a definition. -/
def buildSymbolInstance (projectId rootLayerId objectId : ℤ) (inst : UploadInstance) :
    Except UploadError NewSymbolInstance := do
  let symbolId ← computeSymbolId projectId inst.symbolLocalId
  let instanceType ← if inst.instanceType ≠ 0 then validateInstanceType inst.instanceType
    else pure instanceTypeDefinition
  pure ⟨symbolId, objectId, inst.startOffset, inst.endOffset, instanceType, rootLayerId⟩

/-- `build_symbol_instances`. -/
def buildSymbolInstances (projectId rootLayerId : ℤ) (map : ObjectMap) :
    List UploadObject → Except UploadError (List NewSymbolInstance)
  | [] => pure []
  | object :: objects => do
    let objectId ← resolveObjectId map object.localId
    let rows ← object.symbolInstances.mapM (buildSymbolInstance projectId rootLayerId objectId)
    let others ← buildSymbolInstances projectId rootLayerId map objects
    pure (rows ++ others)

/-- The row of one reference. -/
def buildSymbolRef (projectId rootLayerId objectId : ℤ) (reference : UploadRef) :
    Except UploadError NewSymbolRef := do
  let symbolId ← computeSymbolId projectId reference.toSymbolLocalId
  pure ⟨symbolId, objectId, reference.fromOffsetStart, reference.fromOffsetEnd, rootLayerId⟩

/-- `build_symbol_refs`. -/
def buildSymbolRefs (projectId rootLayerId : ℤ) (map : ObjectMap) :
    List UploadObject → Except UploadError (List NewSymbolRef)
  | [] => pure []
  | object :: objects => do
    let objectId ← resolveObjectId map object.localId
    let rows ← object.refs.mapM (buildSymbolRef projectId rootLayerId objectId)
    let others ← buildSymbolRefs projectId rootLayerId map objects
    pure (rows ++ others)

end Askl
