import Askl.Library.PrefixCode
import Askl.Library.Utf8
import Askl.Query.LayerBlock
import Askl.Store.LayerKeys

/-!
# The keys of layer blocks

The key of a block's base, and what the block adds to the key of its supplement, are
digests of the operations one after another, without separators.  An operation is written
with the symbols its label has been resolved to, so the stream tells the resolved
operations, and these tell the rows.

The digest is a parameter.  What the results need of it is that it does not collide on the
streams they compare.

## Main definitions

* `ResolvedOp` — an operation whose symbols are resolved: its stream and its rows.
* `EphemeralOp.resolve` — the resolution.

## Main results

* `ResolvedOp.delimits_hash` — an operation is read off the head of a stream.
* `layerSpec_keys_determine` — **equal keys are those of equal rows.**
-/

namespace Askl

open LittleEndian PrefixCode Utf8

/-! ### Resolved operations -/

/-- An operation with the symbols it is about. -/
inductive ResolvedOp where
  | symbol (name : Text) (projectId symbolType : I32) (scope : Option I32)
  | instance (ids : List ℤ) (objectId : I32) (start stop : I64) (instanceType : I32)
  | ref (ids : List ℤ) (fromObject : I32) (start stop : I64)
  deriving DecidableEq

/-- The symbols of an operation, resolved. -/
def EphemeralOp.resolve (resolved : LabelResolutions) : EphemeralOp → ResolvedOp
  | symbol name projectId symbolType scope => .symbol name projectId symbolType scope
  | .instance s objectId start stop instanceType =>
    .instance (s.resolveVec resolved) objectId start stop instanceType
  | ref s fromObject start stop => .ref (s.resolveVec resolved) fromObject start stop

namespace ResolvedOp

/-- The kinds of operations. -/
inductive Kind where
  | symbol
  | symbolInstance
  | ref
  deriving DecidableEq

/-- The tag of a kind. -/
def Kind.tag : Kind → Bytes
  | symbol => "ephemeral_symbol".toUTF8.toList
  | symbolInstance => "ephemeral_instance".toUTF8.toList
  | ref => "ephemeral_ref".toUTF8.toList

/-- The kind of an operation. -/
def kind : ResolvedOp → Kind
  | symbol .. => .symbol
  | .instance .. => .symbolInstance
  | ref .. => .ref

/-- A word of the query language. -/
def hashWord {n : ℕ} (x : Word n) : Bytes := leBytes (n + 1) x.val

/-- A text, with its length before it. -/
def hashName (name : Text) : Bytes := leBytes 8 (utf8 name).length ++ utf8 name

/-- What an operation writes after its tag. -/
def hashFields : ResolvedOp → Bytes
  | symbol name projectId symbolType scope =>
    hashName name ++ (hashWord projectId ++ (hashWord symbolType ++
      optionCode 0 1 hashWord scope))
  | .instance ids objectId start stop instanceType =>
    EphemeralOp.hashIds ids ++ (hashWord objectId ++ (hashWord start ++
      (hashWord stop ++ hashWord instanceType)))
  | ref ids fromObject start stop =>
    EphemeralOp.hashIds ids ++ (hashWord fromObject ++ (hashWord start ++ hashWord stop))

/-- The stream of an operation. -/
def hash (op : ResolvedOp) : Bytes := op.kind.tag ++ op.hashFields

/-- The rows of an operation. -/
def rows : ResolvedOp → LayerBatch
  | symbol name projectId symbolType scope =>
    let pathAndLeaf := symbolPathAndLeaf name symbolType.val
    { LayerBatch.new with symbols := [⟨name, pathAndLeaf.1, projectId.val, symbolType.val,
        scope.map Subtype.val, pathAndLeaf.2⟩] }
  | .instance ids objectId start stop instanceType =>
    { LayerBatch.new with instances := ids.map fun id =>
        ⟨id, objectId.val, start.val, stop.val, instanceType.val⟩ }
  | ref ids fromObject start stop =>
    { LayerBatch.new with refs := ids.map fun id =>
        ⟨id, fromObject.val, start.val, stop.val⟩ }

/-- Ids are 64-bit integers, and lengths 64-bit counts. -/
def Fits : ResolvedOp → Prop
  | symbol name .. => (utf8 name).length < 256 ^ 8
  | .instance ids .. => ids.length < 256 ^ 8 ∧ ∀ id ∈ ids, LittleEndian.Fits 7 id
  | ref ids .. => ids.length < 256 ^ 8 ∧ ∀ id ∈ ids, LittleEndian.Fits 7 id

/-- No tag is the beginning of another. -/
theorem Kind.eq_of_tag_prefix (k l : Kind) (h : k.tag <+: l.tag) : k = l := by
  have htag : ∀ k : Kind, k.tag = (match k with
      | .symbol => "ephemeral_symbol"
      | .symbolInstance => "ephemeral_instance"
      | .ref => "ephemeral_ref").toList.flatMap String.utf8EncodeChar := by
    intro k
    cases k <;> exact toUTF8_toList _
  rw [htag, htag] at h
  revert h
  cases k <;> cases l <;> decide

theorem delimits_hashWord (n : ℕ) : Delimits (fun _ => True) (hashWord (n := n)) :=
  (delimits_word n).comap (fun x _ => x.2) fun _ _ _ _ h => Subtype.ext h

theorem delimits_hashName :
    Delimits (fun name => (utf8 name).length < 256 ^ 8) hashName :=
  (Delimits.blob (delimits_count 8)).comap (fun _ h => h) fun _ _ _ _ h => utf8_injective h

theorem delimits_hashIds :
    Delimits (fun ids : List ℤ => ids.length < 256 ^ 8 ∧ ∀ id ∈ ids, LittleEndian.Fits 7 id)
      EphemeralOp.hashIds :=
  (delimits_word 7).counted (delimits_count 8)

/-- The fields of two operations of one kind. -/
theorem hashFields_append_inj {a b : ResolvedOp} {s t : Bytes} (ha : a.Fits) (hb : b.Fits)
    (hkind : a.kind = b.kind) (h : a.hashFields ++ s = b.hashFields ++ t) : a = b ∧ s = t := by
  cases a with
  | symbol name projectId symbolType scope =>
    cases b with
    | symbol name' projectId' symbolType' scope' =>
      simp only [hashFields, List.append_assoc] at h
      have hscope : Delimits _ (optionCode (0 : UInt8) 1 (hashWord (n := 3))) :=
        (delimits_hashWord 3).option (by decide)
      obtain ⟨rfl, h₁⟩ := delimits_hashName ha hb h
      obtain ⟨rfl, h₂⟩ := delimits_hashWord 3 trivial trivial h₁
      obtain ⟨rfl, h₃⟩ := delimits_hashWord 3 trivial trivial h₂
      obtain ⟨rfl, hrest⟩ := hscope (fun _ _ => trivial) (fun _ _ => trivial) h₃
      exact ⟨rfl, hrest⟩
    | _ => cases hkind
  | «instance» ids objectId start stop instanceType =>
    cases b with
    | «instance» ids' objectId' start' stop' instanceType' =>
      simp only [hashFields, List.append_assoc] at h
      obtain ⟨rfl, h₁⟩ := delimits_hashIds ha hb h
      obtain ⟨rfl, h₂⟩ := delimits_hashWord 3 trivial trivial h₁
      obtain ⟨rfl, h₃⟩ := delimits_hashWord 7 trivial trivial h₂
      obtain ⟨rfl, h₄⟩ := delimits_hashWord 7 trivial trivial h₃
      obtain ⟨rfl, hrest⟩ := delimits_hashWord 3 trivial trivial h₄
      exact ⟨rfl, hrest⟩
    | _ => cases hkind
  | ref ids fromObject start stop =>
    cases b with
    | ref ids' fromObject' start' stop' =>
      simp only [hashFields, List.append_assoc] at h
      obtain ⟨rfl, h₁⟩ := delimits_hashIds ha hb h
      obtain ⟨rfl, h₂⟩ := delimits_hashWord 3 trivial trivial h₁
      obtain ⟨rfl, h₃⟩ := delimits_hashWord 7 trivial trivial h₂
      obtain ⟨rfl, hrest⟩ := delimits_hashWord 7 trivial trivial h₃
      exact ⟨rfl, hrest⟩
    | _ => cases hkind

/-- An operation is read off the head of a stream. -/
theorem delimits_hash : Delimits Fits hash :=
  Delimits.sum Kind.eq_of_tag_prefix fun _ _ _ _ ha hb hkind h =>
    hashFields_append_inj ha hb hkind h

/-- An operation writes something. -/
theorem hash_ne_nil (op : ResolvedOp) : op.hash ≠ [] := by
  intro h
  have htag := (List.append_eq_nil_iff.mp h).1
  cases op <;> (rw [kind, Kind.tag, toUTF8_toList] at htag; revert htag; decide)

/-- The rows of some operations, in order. -/
def batchOf (ops : List ResolvedOp) : LayerBatch :=
  ops.foldl (fun batch op => mergeBatch batch op.rows) .new

theorem batchOf_concat (ops : List ResolvedOp) (op : ResolvedOp) :
    batchOf (ops ++ [op]) = mergeBatch (batchOf ops) op.rows := by
  rw [batchOf, List.foldl_append]
  rfl

end ResolvedOp

/-! ### The streams of a block -/

variable {resolved resolved' : LabelResolutions} {ops ops' : List EphemeralOp}

theorem hashParams_eq (resolved : LabelResolutions) (op : EphemeralOp) :
    op.hashParams resolved = (op.resolve resolved).hash := by
  cases op with
  | symbol name projectId symbolType scope =>
    cases scope <;>
      simp [EphemeralOp.hashParams, EphemeralOp.resolve, ResolvedOp.hash, ResolvedOp.hashFields,
        ResolvedOp.kind, ResolvedOp.Kind.tag, ResolvedOp.hashName, ResolvedOp.hashWord,
        optionCode, utf8]
  | «instance» | ref =>
    simp [EphemeralOp.hashParams, EphemeralOp.resolve, ResolvedOp.hash, ResolvedOp.hashFields,
      ResolvedOp.kind, ResolvedOp.Kind.tag, ResolvedOp.hashWord]

theorem rows_eq (resolved : LabelResolutions) (op : EphemeralOp) :
    op.rows resolved = (op.resolve resolved).rows := by
  cases op <;> simp [EphemeralOp.rows, EphemeralOp.collectRows, EphemeralOp.resolve,
    ResolvedOp.rows, LayerBatch.new]

/-- The operations of a block have ids and lengths of 64 bits. -/
def OpsFit (resolved : LabelResolutions) (ops : List EphemeralOp) : Prop :=
  ∀ op ∈ ops, (op.resolve resolved).Fits

/-- The operations of a stream are read off it, up to how their symbols are written. -/
theorem resolve_eq_of_stream (hfit : OpsFit resolved ops) (hfit' : OpsFit resolved' ops')
    (h : ops.flatMap (·.hashParams resolved) = ops'.flatMap (·.hashParams resolved')) :
    ops.map (·.resolve resolved) = ops'.map (·.resolve resolved') := by
  have hmap : ∀ (r : LabelResolutions) (os : List EphemeralOp),
      os.flatMap (·.hashParams r) = (os.map (·.resolve r)).flatMap ResolvedOp.hash := by
    intro r os
    rw [List.flatMap_map]
    exact List.flatMap_congr fun op _ => hashParams_eq r op
  rw [hmap, hmap] at h
  refine ResolvedOp.delimits_hash.uniquely ResolvedOp.hash_ne_nil ?_ ?_ h
  · intro r hr
    obtain ⟨op, hop, rfl⟩ := List.mem_map.mp hr
    exact hfit op hop
  · intro r hr
    obtain ⟨op, hop, rfl⟩ := List.mem_map.mp hr
    exact hfit' op hop

/-! ### The halves of a block -/

/-- The batches of the two halves are the rows of their operations, which are operations of
the block. -/
structure HalvesOf (resolved : LabelResolutions) (ops : List EphemeralOp) (c : Classified) :
    Prop where
  base : c.baseBatch = ResolvedOp.batchOf (c.baseOps.map (·.resolve resolved))
  supp : c.suppBatch = ResolvedOp.batchOf (c.suppOps.map (·.resolve resolved))
  base_mem : ∀ op ∈ c.baseOps, op ∈ ops
  supp_mem : ∀ op ∈ c.suppOps, op ∈ ops

theorem HalvesOf.add {c : Classified} (h : HalvesOf resolved ops c) {op : EphemeralOp}
    (hop : op ∈ ops) : HalvesOf resolved ops (c.add resolved op) := by
  have hmem : ∀ {l : List EphemeralOp}, (∀ o ∈ l, o ∈ ops) → ∀ o ∈ l ++ [op], o ∈ ops := by
    intro l hl o ho
    rcases List.mem_append.mp ho with ho | ho
    · exact hl o ho
    · exact List.mem_singleton.mp ho ▸ hop
  unfold Classified.add
  dsimp only
  split
  · refine ⟨h.base, ?_, h.base_mem, hmem h.supp_mem⟩
    rw [List.map_append, List.map_singleton, ResolvedOp.batchOf_concat, ← h.supp, rows_eq]
  · refine ⟨?_, h.supp, hmem h.base_mem, h.supp_mem⟩
    rw [List.map_append, List.map_singleton, ResolvedOp.batchOf_concat, ← h.base, rows_eq]

theorem halvesOf_classify (resolved : LabelResolutions) (ops : List EphemeralOp) :
    HalvesOf resolved ops (classify resolved ops) := by
  unfold classify
  suffices hloop : ∀ (rest : List EphemeralOp) (c : Classified), (∀ op ∈ rest, op ∈ ops) →
      HalvesOf resolved ops c → HalvesOf resolved ops (rest.foldl (Classified.add resolved) c)
    from hloop ops _ (fun _ h => h)
      ⟨rfl, rfl, fun _ h => absurd h List.not_mem_nil, fun _ h => absurd h List.not_mem_nil⟩
  intro rest
  induction rest with
  | nil =>
    intro c _ h
    exact h
  | cons op rest ih =>
    intro c hrest h
    rw [List.foldl_cons]
    exact ih _ (fun o ho => hrest o (.tail _ ho)) (h.add (hrest op List.mem_cons_self))

/-! ### Keys and rows -/

section Keys

variable {sha256 : Bytes → Bytes} {db db' : Database} {eph eph' : EphContext}
  {spec spec' : LayerSpec}

/-- The keys of a block that is accepted. -/
theorem keys_of_layerSpec (h : layerSpec sha256 db ops eph resolved = .ok spec) :
    spec.baseHash = sha256 (baseStream resolved (classify resolved ops).baseOps) ∧
      (spec.supplementExtra ≠ [] → spec.supplementExtra =
        sha256 (supplementStream resolved (classify resolved ops).suppOps)) := by
  unfold layerSpec at h
  split at h
  · cases h
  · dsimp only at h
    split at h
    · cases h
    · obtain ⟨-, -, h⟩ := Fallible.bind_eq_ok.mp h
      obtain ⟨-, -, h⟩ := Fallible.bind_eq_ok.mp h
      obtain rfl := Except.ok.inj h
      refine ⟨rfl, fun hne => ?_⟩
      dsimp only at hne ⊢
      split
      · next hempty => rw [if_pos hempty] at hne; exact absurd rfl hne
      · rfl

/-- **Equal keys are those of equal rows.**  For any two blocks, however their symbols are
written, equal base hashes are those of equal base batches, and equal supplement extras
that are not empty of equal supplement batches. -/
theorem layerSpec_keys_determine (sha256 : Bytes → Bytes) {db db' : Database}
    {ops ops' : List EphemeralOp} {eph eph' : EphContext}
    {resolved resolved' : LabelResolutions} {spec spec' : LayerSpec}
    (h : layerSpec sha256 db ops eph resolved = .ok spec)
    (h' : layerSpec sha256 db' ops' eph' resolved' = .ok spec')
    (hfit : OpsFit resolved ops) (hfit' : OpsFit resolved' ops')
    (hbase : NoCollision sha256 (baseStream resolved (classify resolved ops).baseOps)
      (baseStream resolved' (classify resolved' ops').baseOps))
    (hsupp : NoCollision sha256 (supplementStream resolved (classify resolved ops).suppOps)
      (supplementStream resolved' (classify resolved' ops').suppOps)) :
    (spec.baseHash = spec'.baseHash → spec.baseBatch = spec'.baseBatch) ∧
      (spec.supplementExtra ≠ [] → spec.supplementExtra = spec'.supplementExtra →
        spec.suppBatch = spec'.suppBatch) := by
  have hc := halvesOf_classify resolved ops
  have hc' := halvesOf_classify resolved' ops'
  obtain ⟨hbatch, hsuppBatch⟩ := layerSpec_ok sha256 h
  obtain ⟨hbatch', hsuppBatch'⟩ := layerSpec_ok sha256 h'
  obtain ⟨hhash, hextra⟩ := keys_of_layerSpec h
  obtain ⟨hhash', hextra'⟩ := keys_of_layerSpec h'
  constructor
  · intro heq
    rw [hhash, hhash'] at heq
    have hops := resolve_eq_of_stream (fun op hop => hfit op (hc.base_mem op hop))
      (fun op hop => hfit' op (hc'.base_mem op hop)) (List.append_cancel_left (hbase heq))
    rw [hbatch, hbatch', hc.base, hc'.base, hops]
  · intro hne heq
    have hne' : spec'.supplementExtra ≠ [] := heq ▸ hne
    rw [hextra hne, hextra' hne'] at heq
    have hops := resolve_eq_of_stream (fun op hop => hfit op (hc.supp_mem op hop))
      (fun op hop => hfit' op (hc'.supp_mem op hop)) (List.append_cancel_left (hsupp heq))
    rw [hsuppBatch, hsuppBatch', hc.supp, hc'.supp, hops]

end Keys

/-! ### A sample of one operation written in two ways -/

/-- The operation of `instanceOp` for a persistent object, with a label for its symbol. -/
def labelledOp : EphemeralOp :=
  .instance (.label ['x']) (.lit 1 (.refl true)) (.lit 0 (.refl true)) (.lit 9 (.refl true))
    (.lit 1 (.refl true))

/-- The label `x` selects symbol 1. -/
def oneLabel : LabelResolutions := (∅ : LabelResolutions).insert ['x'] [1]

/-- The spec of a block with such an operation. -/
def sampleBlockSpec (baseHash : Bytes) : LayerSpec where
  baseHash := baseHash
  supplementExtra := []
  baseBatch := ⟨[], [⟨1, 1, 0, 9, 1⟩], []⟩
  suppBatch := .new

/-- The bytes of a hash for short runs. -/
def sampleDigest (input : Bytes) : Bytes := (polynomialHash input).val

/-- The block with the literal. -/
def literalSpec : LayerSpec :=
  sampleBlockSpec (sampleDigest (baseStream ∅ [instanceOp (.lit 1 (.refl true))]))

/-- The block with the label. -/
def labelledSpec : LayerSpec := sampleBlockSpec (sampleDigest (baseStream oneLabel [labelledOp]))

/-- A literal and a label make one key, and one row. -/
theorem layerSpec_keys_determine_sample :
    (layerSpec sampleDigest layeredObjects [instanceOp ⟨1, by decide⟩] (.rooted [⟨1, 1⟩]) ∅ =
        .ok literalSpec ∧
      layerSpec sampleDigest layeredObjects [labelledOp] (.rooted [⟨1, 1⟩]) oneLabel =
        .ok labelledSpec ∧ literalSpec.baseHash = labelledSpec.baseHash) ∧
    (literalSpec.baseHash = labelledSpec.baseHash →
      literalSpec.baseBatch = labelledSpec.baseBatch) := by
  have hspec : layerSpec sampleDigest layeredObjects [instanceOp ⟨1, by decide⟩]
      (.rooted [⟨1, 1⟩]) ∅ = .ok literalSpec := rfl
  have hspec' : layerSpec sampleDigest layeredObjects [labelledOp] (.rooted [⟨1, 1⟩]) oneLabel =
      .ok labelledSpec := rfl
  have hfits : OpsFit ∅ [instanceOp ⟨1, by decide⟩] := by
    intro op hop
    obtain rfl := List.mem_singleton.mp hop
    exact ⟨by decide, by decide⟩
  have hfits' : OpsFit oneLabel [labelledOp] := by
    intro op hop
    obtain rfl := List.mem_singleton.mp hop
    exact ⟨by decide, by decide⟩
  have hstream : baseStream ∅ [instanceOp ⟨1, by decide⟩] = baseStream oneLabel [labelledOp] :=
    rfl
  exact ⟨⟨hspec, hspec', congrArg sampleDigest hstream⟩,
    (layerSpec_keys_determine sampleDigest hspec hspec' hfits hfits' (fun _ => hstream)
      fun _ => rfl).1⟩

end Askl
