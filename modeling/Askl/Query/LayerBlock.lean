import Askl.Index.Selection
import Askl.Library.LittleEndian
import Askl.Query.ComputeRoots
import Askl.Store.UploadRows

/-!
# Layer blocks

The operations of a `layer { … }` block, the rows they emit, and how a block is split
into a base, shared by all chains, and a supplement for the chain it was written under.
An operation goes to the supplement when one of its rows names an ephemeral symbol.
The object a row lies in is not looked at.

## Main definitions

* `EphemeralOp` — the operations, with their constructors `createSymbol`, `createInstance`
  and `createRef`.
* `EphemeralOp.collectRows`, `EphemeralOp.hashParams` — the rows of an operation, and what
  it adds to a key.
* `batchReferencesEph`, `classify` — the split.
* `layerSpec` — the keys and the batches of a block, or why it is refused.

## Main results

* `split_classify` — every emitted row is in one of the two batches, in order.
* `base_persistent_iff` — **the base names no ephemeral row exactly when no operation of
  the base lies in an ephemeral object.**
-/

namespace Askl

open LittleEndian

/-! ### Arguments -/

/-- A word of the query language's integer types. -/
abbrev Word (n : ℕ) := {x : ℤ // Fits n x}

/-- `i32`. -/
abbrev I32 := Word 3

/-- `i64`. -/
abbrev I64 := Word 7

/-- A literal of such a type. -/
def Word.lit {n : ℕ} (x : ℤ) (h : decide (Fits n x)) : Word n := ⟨x, of_decide_eq_true h⟩

/-- `StringKind`. -/
inductive StringKind where
  | plain
  | glob
  deriving DecidableEq, Repr

/-- `Value`. -/
structure Value where
  kind : StringKind
  text : Text
  deriving DecidableEq, Repr

/-- The named arguments of a verb. -/
abbrev NamedArgs := List (Text × Value)

/-- `Value::as_plain`. -/
def Value.asPlain (v : Value) : Except String Text :=
  match v.kind with
  | .plain => .ok v.text
  | .glob =>
    let text := String.ofList v.text
    .error s!"expected a plain string, found glob string g\"{text}\""

/-- The value of a run of digits. -/
def parseDigits (t : Text) : Option ℕ :=
  if t.isEmpty then none
  else t.foldlM (fun acc c => if c.isDigit then some (acc * 10 + (c.toNat - 48)) else none) 0

/-- `str::parse` of a signed integer of `n + 1` bytes. -/
def parseWord (n : ℕ) (t : Text) : Option (Word n) :=
  let value : Option ℤ := match t with
    | '-' :: ds => (parseDigits ds).map fun k => -(k : ℤ)
    | '+' :: ds => (parseDigits ds).map fun k => (k : ℤ)
    | ds => (parseDigits ds).map fun k => (k : ℤ)
  value.bind fun x => if h : Fits n x then some ⟨x, h⟩ else none

/-- A required argument. -/
def required (named : NamedArgs) (key : String) : Except String Text :=
  match named.lookup key.toList with
  | none => .error s!"requires '{key}' parameter"
  | some v => v.asPlain

/-- `parse_required!` of an integer type. -/
def parseRequired (n : ℕ) (typeName : String) (named : NamedArgs) (key : String) :
    Except String (Word n) := do
  let text ← required named key
  match parseWord n text with
  | none => .error s!"'{key}' must be a valid {typeName}"
  | some x => pure x

/-! ### Operations -/

/-- `SymbolRef`: the symbols an operation is about, one or those of a label. -/
inductive SymbolOperand where
  | literal (id : I64)
  | label (label : Text)
  deriving DecidableEq, Repr

namespace SymbolOperand

/-- `SymbolRef::parse`. -/
def parse (raw : Text) (key : String) : Except String SymbolOperand :=
  match raw with
  | '@' :: name =>
    if name.isEmpty then .error s!"'{key}' label reference must not be empty"
    else .ok (.label name)
  | _ => match parseWord 7 raw with
    | none => .error (s!"'{key}' must be a valid i64 or a label reference " ++
        "(labels start with '@', e.g. '@foo')")
    | some id => .ok (.literal id)

/-- `LabelResolutions::get` and `SymbolRef::resolve_vec`. -/
def resolveVec (resolved : LabelResolutions) : SymbolOperand → List ℤ
  | literal id => [id.val]
  | label l => (resolved.lookup l).getD []

/-- `SymbolRef::label`. -/
def label? : SymbolOperand → Option Text
  | literal _ => none
  | label l => some l

end SymbolOperand

/-- `EphemeralSymbolVerb`, `EphemeralInstanceVerb` and `EphemeralRefVerb`. -/
inductive EphemeralOp where
  | symbol (name : Text) (projectId symbolType : I32) (scope : Option I32)
  | instance (symbol : SymbolOperand) (objectId : I32) (start stop : I64) (instanceType : I32)
  | ref (toSymbol : SymbolOperand) (fromObject : I32) (start stop : I64)
  deriving DecidableEq, Repr

/-- `EphSymbolRow`. -/
structure EphSymbolRow where
  name : Text
  path : Ltree
  projectId : ℤ
  symbolType : ℤ
  scope : Option ℤ
  leafName : Text
  deriving DecidableEq, Repr

/-- `EphInstanceRow`. -/
structure EphInstanceRow where
  symbolId : ℤ
  objectId : ℤ
  start : ℤ
  stop : ℤ
  instanceType : ℤ
  deriving DecidableEq, Repr

/-- `EphRefRow`. -/
structure EphRefRow where
  toSymbol : ℤ
  fromObject : ℤ
  start : ℤ
  stop : ℤ
  deriving DecidableEq, Repr

/-- `LayerBatch`. -/
structure LayerBatch where
  symbols : List EphSymbolRow
  instances : List EphInstanceRow
  refs : List EphRefRow
  deriving DecidableEq, Repr

/-- `LayerBatch::new`. -/
def LayerBatch.new : LayerBatch := ⟨[], [], []⟩

namespace EphemeralOp

/-- `EphemeralSymbolVerb::create`: the types run from function (1) to field (8). -/
def createSymbol (named : NamedArgs) : Except String EphemeralOp := do
  let name ← required named "name"
  let projectId ← parseRequired 3 "i32" named "project_id"
  let symbolType ← parseRequired 3 "i32" named "symbol_type"
  if symbolType.val < 1 ∨ 8 < symbolType.val then
    let found := symbolType.val
    .error s!"symbol_type must be between 1 and 8 (got {found})"
  else match named.lookup "scope".toList with
    | none => pure (.symbol name projectId symbolType none)
    | some v => do
      let text ← v.asPlain
      match parseWord 3 text with
      | none => .error "'scope' must be a valid i32"
      | some scope => pure (.symbol name projectId symbolType (some scope))

/-- `EphemeralInstanceVerb::create`: the types run from definition (1) to
documentation (10). -/
def createInstance (named : NamedArgs) : Except String EphemeralOp := do
  let raw ← required named "symbol_id"
  let symbol ← SymbolOperand.parse raw "symbol_id"
  let objectId ← parseRequired 3 "i32" named "object_id"
  let start ← parseRequired 7 "i64" named "start"
  let stop ← parseRequired 7 "i64" named "end"
  let instanceType ← parseRequired 3 "i32" named "instance_type"
  if instanceType.val < 1 ∨ 10 < instanceType.val then
    let found := instanceType.val
    .error s!"instance_type must be between 1 and 10 (got {found})"
  else pure (.instance symbol objectId start stop instanceType)

/-- `EphemeralRefVerb::create`. -/
def createRef (named : NamedArgs) : Except String EphemeralOp := do
  let raw ← required named "to_symbol"
  let toSymbol ← SymbolOperand.parse raw "to_symbol"
  let fromObject ← parseRequired 3 "i32" named "from_object"
  let start ← parseRequired 7 "i64" named "start"
  let stop ← parseRequired 7 "i64" named "end"
  pure (.ref toSymbol fromObject start stop)

/-- `label_refs`. -/
def labelRefs : EphemeralOp → List Text
  | symbol .. => []
  | .instance s .. => s.label?.toList
  | ref s .. => s.label?.toList

/-- `collect_rows`: push the rows of an operation, one for every symbol it is about. -/
def collectRows (resolved : LabelResolutions) (batch : LayerBatch) : EphemeralOp → LayerBatch
  | symbol name projectId symbolType scope =>
    let pathAndLeaf := symbolPathAndLeaf name symbolType.val
    { batch with symbols := batch.symbols ++ [⟨name, pathAndLeaf.1, projectId.val,
        symbolType.val, scope.map Subtype.val, pathAndLeaf.2⟩] }
  | .instance s objectId start stop instanceType =>
    { batch with instances := batch.instances ++ (s.resolveVec resolved).map fun id =>
        ⟨id, objectId.val, start.val, stop.val, instanceType.val⟩ }
  | ref s fromObject start stop =>
    { batch with refs := batch.refs ++ (s.resolveVec resolved).map fun id =>
        ⟨id, fromObject.val, start.val, stop.val⟩ }

/-- The resolved ids, with their number before them. -/
def hashIds (ids : List ℤ) : Bytes :=
  leBytes 8 ids.length ++ ids.flatMap (leBytes 8)

/-- `hash_params`: what an operation adds to a key. -/
def hashParams (resolved : LabelResolutions) : EphemeralOp → Bytes
  | symbol name projectId symbolType scope =>
    let utf8 := (String.ofList name).toUTF8.toList
    "ephemeral_symbol".toUTF8.toList ++ leBytes 8 utf8.length ++ utf8 ++
      leBytes 4 projectId.val ++ leBytes 4 symbolType.val ++
      match scope with
      | some s => 1 :: leBytes 4 s.val
      | none => [0]
  | .instance s objectId start stop instanceType =>
    "ephemeral_instance".toUTF8.toList ++ hashIds (s.resolveVec resolved) ++
      leBytes 4 objectId.val ++ leBytes 8 start.val ++ leBytes 8 stop.val ++
      leBytes 4 instanceType.val
  | ref s fromObject start stop =>
    "ephemeral_ref".toUTF8.toList ++ hashIds (s.resolveVec resolved) ++
      leBytes 4 fromObject.val ++ leBytes 8 start.val ++ leBytes 8 stop.val

/-- The rows of one operation. -/
def rows (resolved : LabelResolutions) (op : EphemeralOp) : LayerBatch :=
  op.collectRows resolved .new

end EphemeralOp

/-! ### The split of a block -/

/-- `batch_references_eph`. -/
def batchReferencesEph (batch : LayerBatch) : Bool :=
  batch.instances.any (fun r => decide (r.symbolId < 0)) ||
    batch.refs.any fun r => decide (r.toSymbol < 0)

/-- `merge_batch`. -/
def mergeBatch (dst src : LayerBatch) : LayerBatch where
  symbols := dst.symbols ++ src.symbols
  instances := dst.instances ++ src.instances
  refs := dst.refs ++ src.refs

/-- The two halves of a block. -/
structure Classified where
  baseOps : List EphemeralOp
  suppOps : List EphemeralOp
  baseBatch : LayerBatch
  suppBatch : LayerBatch
  deriving DecidableEq, Repr

/-- One operation of the loop: its rows decide which half it goes to. -/
def Classified.add (resolved : LabelResolutions) (c : Classified) (op : EphemeralOp) :
    Classified :=
  let probe := op.rows resolved
  if batchReferencesEph probe then
    { c with suppOps := c.suppOps ++ [op], suppBatch := mergeBatch c.suppBatch probe }
  else { c with baseOps := c.baseOps ++ [op], baseBatch := mergeBatch c.baseBatch probe }

/-- The loop over the operations. -/
def classify (resolved : LabelResolutions) (ops : List EphemeralOp) : Classified :=
  ops.foldl (Classified.add resolved) ⟨[], [], .new, .new⟩

/-- `LayerSpec`, with the rows its populates insert. -/
structure LayerSpec where
  baseHash : Bytes
  supplementExtra : Bytes
  baseBatch : LayerBatch
  suppBatch : LayerBatch
  deriving DecidableEq, Repr

/-- The stream the key of a base is the digest of. -/
def baseStream (resolved : LabelResolutions) (baseOps : List EphemeralOp) : Bytes :=
  "layer".toUTF8.toList ++ baseOps.flatMap (·.hashParams resolved)

/-- The stream that the operations of a supplement add to its key. -/
def supplementStream (resolved : LabelResolutions) (suppOps : List EphemeralOp) : Bytes :=
  "layer-supplement-ops-v1".toUTF8.toList ++ suppOps.flatMap (·.hashParams resolved)

/-- `load_object_projects`. -/
def loadObjectProjects (db : Database) (ids : List ℤ) : List (ℤ × ℤ) :=
  (db.objects.filter fun o => ids.contains o.id).map fun o => (o.id, o.projectId)

/-- The check of the symbols' projects. -/
def checkProjects (visible : List ℤ) : List EphSymbolRow → Except String Unit
  | [] => .ok ()
  | row :: rows =>
    if visible.contains row.projectId then checkProjects visible rows
    else
      let id := row.projectId
      .error s!"ephemeral_symbol: project_id {id} does not match any visible project"

/-- The check of the objects that the instances and references lie in. -/
def checkObjects (visible : List ℤ) (known : List (ℤ × ℤ)) : List ℤ → Except String Unit
  | [] => .ok ()
  | id :: ids => match known.lookup id with
    | none => .error s!"layer block references unknown object_id {id}"
    | some p =>
      if visible.contains p then checkObjects visible known ids
      else .error (s!"layer block references object_id {id} in project {p}, " ++
        "which is not a visible project")

/-- The object ids of a block. -/
def Classified.objectIds (c : Classified) : List ℤ :=
  canonicalIds (((c.baseBatch.instances ++ c.suppBatch.instances).map (·.objectId)) ++
    (c.baseBatch.refs ++ c.suppBatch.refs).map (·.fromObject))

section Spec

-- the digest, 32 bytes of SHA-256
variable (sha256 : Bytes → Bytes)

/-- `LayerVerb::layer_spec`. -/
def layerSpec (db : Database) (ops : List EphemeralOp) (eph : EphContext)
    (resolved : LabelResolutions) : Except String LayerSpec :=
  if ops.isEmpty then .error "layer block must contain at least one ephemeral verb"
  else
    let c := classify resolved ops
    if !c.suppOps.isEmpty && !eph.hasChain then
      .error ("layer block references ephemeral (negative) ids but no " ++
        "ephemeral context exists before this statement")
    else do
      let visible := eph.roots.map (·.projectId)
      checkProjects visible (c.baseBatch.symbols ++ c.suppBatch.symbols)
      checkObjects visible (loadObjectProjects db c.objectIds) c.objectIds
      pure
        { baseHash := sha256 (baseStream resolved c.baseOps)
          supplementExtra := if c.suppOps.isEmpty then []
            else sha256 (supplementStream resolved c.suppOps)
          baseBatch := c.baseBatch
          suppBatch := c.suppBatch }

/-- A block that is accepted is split by its operations' rows. -/
theorem layerSpec_ok {db : Database} {ops : List EphemeralOp} {eph : EphContext}
    {resolved : LabelResolutions} {spec : LayerSpec}
    (h : layerSpec sha256 db ops eph resolved = .ok spec) :
    spec.baseBatch = (classify resolved ops).baseBatch ∧
      spec.suppBatch = (classify resolved ops).suppBatch := by
  unfold layerSpec at h
  split at h
  · cases h
  · dsimp only at h
    split at h
    · cases h
    · obtain ⟨-, -, h⟩ := Fallible.bind_eq_ok.mp h
      obtain ⟨-, -, h⟩ := Fallible.bind_eq_ok.mp h
      obtain rfl := Except.ok.inj h
      exact ⟨rfl, rfl⟩

end Spec

/-! ### No row is lost -/

/-- Two lists that a list has been dealt out to, each in the order of the list. -/
structure Split {α : Type*} (xs ys all : List α) : Prop where
  perm : (xs ++ ys).Perm all
  left : xs.Sublist all
  right : ys.Sublist all

namespace Split

variable {α : Type*} {xs ys all : List α}

theorem nil : Split ([] : List α) [] [] := ⟨.nil, .slnil, .slnil⟩

/-- The next elements go to the left. -/
theorem appendLeft (h : Split xs ys all) (zs : List α) :
    Split (xs ++ zs) ys (all ++ zs) where
  perm := by
    have hswap : (xs ++ zs ++ ys).Perm (xs ++ ys ++ zs) := by
      rw [List.append_assoc, List.append_assoc]
      exact List.perm_append_comm.append_left xs
    exact hswap.trans (h.perm.append_right zs)
  left := h.left.append (List.Sublist.refl zs)
  right := h.right.trans (List.sublist_append_left all zs)

/-- The next elements go to the right. -/
theorem appendRight (h : Split xs ys all) (zs : List α) :
    Split xs (ys ++ zs) (all ++ zs) where
  perm := by
    rw [← List.append_assoc]
    exact h.perm.append_right zs
  left := h.left.trans (List.sublist_append_left all zs)
  right := h.right.append (List.Sublist.refl zs)

end Split

/-- Two batches that the rows of a batch have been dealt out to. -/
structure BatchSplit (base supp all : LayerBatch) : Prop where
  symbols : Split base.symbols supp.symbols all.symbols
  instances : Split base.instances supp.instances all.instances
  refs : Split base.refs supp.refs all.refs

/-- All rows that the operations of a block emit. -/
def emittedRows (resolved : LabelResolutions) (ops : List EphemeralOp) : LayerBatch :=
  ops.foldl (fun batch op => op.collectRows resolved batch) .new

/-- An operation appends its rows. -/
theorem collectRows_eq (resolved : LabelResolutions) (batch : LayerBatch) (op : EphemeralOp) :
    op.collectRows resolved batch = mergeBatch batch (op.rows resolved) := by
  cases op <;> simp [EphemeralOp.rows, EphemeralOp.collectRows, mergeBatch, LayerBatch.new]

/-- One operation keeps the split. -/
theorem BatchSplit.add {resolved : LabelResolutions} {c : Classified} {all : LayerBatch}
    (h : BatchSplit c.baseBatch c.suppBatch all) (op : EphemeralOp) :
    BatchSplit (c.add resolved op).baseBatch (c.add resolved op).suppBatch
      (op.collectRows resolved all) := by
  rw [collectRows_eq]
  unfold Classified.add
  dsimp only
  split
  · exact ⟨h.symbols.appendRight _, h.instances.appendRight _, h.refs.appendRight _⟩
  · exact ⟨h.symbols.appendLeft _, h.instances.appendLeft _, h.refs.appendLeft _⟩

/-- **The rows of a block are dealt out to its two batches.**  Each row is in one of them,
none is lost, and both keep the order. -/
theorem split_classify (resolved : LabelResolutions) (ops : List EphemeralOp) :
    BatchSplit (classify resolved ops).baseBatch (classify resolved ops).suppBatch
      (emittedRows resolved ops) := by
  unfold classify emittedRows
  -- the loop and the emission run over the operations side by side
  have hloop : ∀ (ops : List EphemeralOp) (c : Classified) (all : LayerBatch),
      BatchSplit c.baseBatch c.suppBatch all →
      BatchSplit (ops.foldl (Classified.add resolved) c).baseBatch
        (ops.foldl (Classified.add resolved) c).suppBatch
        (ops.foldl (fun batch op => op.collectRows resolved batch) all) := by
    intro ops
    induction ops with
    | nil =>
      intro c all h
      exact h
    | cons op ops ih =>
      intro c all h
      rw [List.foldl_cons, List.foldl_cons]
      exact ih _ _ (h.add op)
  exact hloop ops _ _ ⟨.nil, .nil, .nil⟩

/-! ### What the base names -/

/-- The operations of the base are those whose rows name no ephemeral symbol, and its rows
are theirs. -/
theorem baseBatch_classify (resolved : LabelResolutions) (ops : List EphemeralOp) :
    (classify resolved ops).baseBatch =
      ((ops.filter fun op => !batchReferencesEph (op.rows resolved)).foldl
        (fun batch op => mergeBatch batch (op.rows resolved)) .new) := by
  unfold classify
  have hloop : ∀ (ops : List EphemeralOp) (c : Classified),
      (ops.foldl (Classified.add resolved) c).baseBatch =
        (ops.filter fun op => !batchReferencesEph (op.rows resolved)).foldl
          (fun batch op => mergeBatch batch (op.rows resolved)) c.baseBatch := by
    intro ops
    induction ops with
    | nil =>
      intro c
      rfl
    | cons op ops ih =>
      intro c
      rw [List.foldl_cons, ih, List.filter_cons]
      unfold Classified.add
      cases h : batchReferencesEph (op.rows resolved) with
      | true => simp [h]
      | false => simp [h]
  exact hloop ops _

theorem mem_instances_merged {resolved : LabelResolutions} {ops : List EphemeralOp}
    {batch : LayerBatch} {r : EphInstanceRow} :
    r ∈ (ops.foldl (fun b op => mergeBatch b (op.rows resolved)) batch).instances ↔
      r ∈ batch.instances ∨ ∃ op ∈ ops, r ∈ (op.rows resolved).instances := by
  induction ops generalizing batch with
  | nil => simp
  | cons op ops ih =>
    rw [List.foldl_cons, ih]
    simp [mergeBatch, or_assoc]

theorem mem_refs_merged {resolved : LabelResolutions} {ops : List EphemeralOp}
    {batch : LayerBatch} {r : EphRefRow} :
    r ∈ (ops.foldl (fun b op => mergeBatch b (op.rows resolved)) batch).refs ↔
      r ∈ batch.refs ∨ ∃ op ∈ ops, r ∈ (op.rows resolved).refs := by
  induction ops generalizing batch with
  | nil => simp
  | cons op ops ih =>
    rw [List.foldl_cons, ih]
    simp [mergeBatch, or_assoc]

theorem mem_instances_base {resolved : LabelResolutions} {ops : List EphemeralOp}
    {r : EphInstanceRow} : r ∈ (classify resolved ops).baseBatch.instances ↔
      ∃ op ∈ ops, batchReferencesEph (op.rows resolved) = false ∧
        r ∈ (op.rows resolved).instances := by
  rw [baseBatch_classify, mem_instances_merged]
  simp [LayerBatch.new, and_assoc]

theorem mem_refs_base {resolved : LabelResolutions} {ops : List EphemeralOp}
    {r : EphRefRow} : r ∈ (classify resolved ops).baseBatch.refs ↔
      ∃ op ∈ ops, batchReferencesEph (op.rows resolved) = false ∧
        r ∈ (op.rows resolved).refs := by
  rw [baseBatch_classify, mem_refs_merged]
  simp [LayerBatch.new, and_assoc]

/-- A row names an ephemeral row by one of its ids; the rows of ephemeral layers have
negative ids. -/
def NamesEphemeral (batch : LayerBatch) : Prop :=
  (∃ r ∈ batch.instances, r.symbolId < 0 ∨ r.objectId < 0) ∨
    ∃ r ∈ batch.refs, r.toSymbol < 0 ∨ r.fromObject < 0

instance (batch : LayerBatch) : Decidable (NamesEphemeral batch) :=
  inferInstanceAs (Decidable (_ ∨ _))

/-- Whether a row of a batch lies in an ephemeral object. -/
def batchInEphObject (batch : LayerBatch) : Bool :=
  batch.instances.any (fun r => decide (r.objectId < 0)) ||
    batch.refs.any fun r => decide (r.fromObject < 0)

/-- The rows of an operation of the base name ephemeral rows only by their objects. -/
theorem namesEphemeral_iff {batch : LayerBatch} (h : batchReferencesEph batch = false) :
    NamesEphemeral batch ↔ batchInEphObject batch = true := by
  simp only [batchReferencesEph, Bool.or_eq_false_iff, List.any_eq_false, decide_eq_true_eq,
    not_lt] at h
  simp only [batchInEphObject, Bool.or_eq_true, List.any_eq_true, decide_eq_true_eq,
    NamesEphemeral]
  constructor
  · rintro (⟨r, hr, hneg | hneg⟩ | ⟨r, hr, hneg | hneg⟩)
    · have := h.1 r hr
      omega
    · exact Or.inl ⟨r, hr, hneg⟩
    · have := h.2 r hr
      omega
    · exact Or.inr ⟨r, hr, hneg⟩
  · rintro (⟨r, hr, hneg⟩ | ⟨r, hr, hneg⟩)
    · exact Or.inl ⟨r, hr, Or.inr hneg⟩
    · exact Or.inr ⟨r, hr, Or.inr hneg⟩

/-- The base names an ephemeral row when an operation of it does. -/
theorem namesEphemeral_base_iff (resolved : LabelResolutions) (ops : List EphemeralOp) :
    NamesEphemeral (classify resolved ops).baseBatch ↔
      ∃ op ∈ ops, batchReferencesEph (op.rows resolved) = false ∧
        NamesEphemeral (op.rows resolved) := by
  constructor
  · rintro (⟨r, hr, hneg⟩ | ⟨r, hr, hneg⟩)
    · obtain ⟨op, hop, hbase, hr⟩ := mem_instances_base.mp hr
      exact ⟨op, hop, hbase, Or.inl ⟨r, hr, hneg⟩⟩
    · obtain ⟨op, hop, hbase, hr⟩ := mem_refs_base.mp hr
      exact ⟨op, hop, hbase, Or.inr ⟨r, hr, hneg⟩⟩
  · rintro ⟨op, hop, hbase, ⟨r, hr, hneg⟩ | ⟨r, hr, hneg⟩⟩
    · exact Or.inl ⟨r, mem_instances_base.mpr ⟨op, hop, hbase, hr⟩, hneg⟩
    · exact Or.inr ⟨r, mem_refs_base.mpr ⟨op, hop, hbase, hr⟩, hneg⟩

/-- **When the base of a block is persistent.**  The rows of a block that is accepted are
dealt out to its two batches, and the base names no ephemeral row, exactly when no
operation whose rows name no ephemeral symbol emits a row in an ephemeral object. -/
theorem base_persistent_iff (sha256 : Bytes → Bytes) {db : Database} {ops : List EphemeralOp}
    {eph : EphContext} {resolved : LabelResolutions} {spec : LayerSpec}
    (h : layerSpec sha256 db ops eph resolved = .ok spec) :
    BatchSplit spec.baseBatch spec.suppBatch (emittedRows resolved ops) ∧
        ¬NamesEphemeral spec.baseBatch ↔
      ∀ op ∈ ops, batchReferencesEph (op.rows resolved) = false →
        batchInEphObject (op.rows resolved) = false := by
  obtain ⟨hbase, hsupp⟩ := layerSpec_ok sha256 h
  rw [hbase, hsupp, and_iff_right (split_classify resolved ops), namesEphemeral_base_iff]
  constructor
  · intro hnone op hop hb
    by_contra hin
    rw [Bool.not_eq_false] at hin
    exact hnone ⟨op, hop, hb, (namesEphemeral_iff hb).mpr hin⟩
  · rintro hall ⟨op, hop, hb, hnames⟩
    have hin := (namesEphemeral_iff hb).mp hnames
    rw [hall op hop hb] at hin
    cases hin

/-- An index of one project, with the persistent object 1 and the ephemeral object -5. -/
def layeredObjects : Database :=
  { Database.singleFile [] [] [] (.refl true) (.refl true) (.refl true) with
    objects := [⟨1, 1, ['/', 'f'], 1⟩, ⟨-5, 1, ['/', 'g'], -1000000⟩]
    objects_nodup := by decide }

/-- The arguments of `ephemeral_instance` for symbol 1 in an object. -/
def instanceArgs (objectId : Text) : NamedArgs :=
  [("symbol_id".toList, ⟨.plain, ['1']⟩), ("object_id".toList, ⟨.plain, objectId⟩),
    ("start".toList, ⟨.plain, ['0']⟩), ("end".toList, ⟨.plain, ['9']⟩),
    ("instance_type".toList, ⟨.plain, ['1']⟩)]

/-- The operation of those arguments. -/
def instanceOp (objectId : I32) : EphemeralOp :=
  .instance (.literal (.lit 1 (.refl true))) objectId (.lit 0 (.refl true)) (.lit 9 (.refl true))
    (.lit 1 (.refl true))

/-- The spec of a block with that one operation, whose row is in the base. -/
def instanceSpec (objectId : ℤ) : LayerSpec where
  baseHash := List.replicate 32 0
  supplementExtra := []
  baseBatch := ⟨[], [⟨1, objectId, 0, 9, 1⟩], []⟩
  suppBatch := .new

/-- A block on a persistent object has a persistent base. -/
theorem base_persistent_of_object :
    EphemeralOp.createInstance (instanceArgs ['1']) = .ok (instanceOp ⟨1, by decide⟩) ∧
      layerSpec (fun _ => List.replicate 32 0) layeredObjects [instanceOp ⟨1, by decide⟩]
        (.rooted [⟨1, 1⟩]) ∅ = .ok (instanceSpec 1) ∧
      BatchSplit (instanceSpec 1).baseBatch (instanceSpec 1).suppBatch
        (emittedRows ∅ [instanceOp ⟨1, by decide⟩]) ∧
      ¬NamesEphemeral (instanceSpec 1).baseBatch := by
  have hspec : layerSpec (fun _ => List.replicate 32 0) layeredObjects
      [instanceOp ⟨1, by decide⟩] (.rooted [⟨1, 1⟩]) ∅ = .ok (instanceSpec 1) := by
    decide +kernel
  exact ⟨by decide +kernel, hspec, (base_persistent_iff _ hspec).mpr (by decide +kernel)⟩

/-- **A block on an ephemeral object puts its row in the base.** -/
theorem not_base_persistent_of_object :
    EphemeralOp.createInstance (instanceArgs ['-', '5']) = .ok (instanceOp ⟨-5, by decide⟩) ∧
      layerSpec (fun _ => List.replicate 32 0) layeredObjects [instanceOp ⟨-5, by decide⟩]
        (.rooted [⟨1, 1⟩]) ∅ = .ok (instanceSpec (-5)) ∧
      NamesEphemeral (instanceSpec (-5)).baseBatch := by
  refine ⟨by decide +kernel, by decide +kernel, by decide +kernel⟩

end Askl
