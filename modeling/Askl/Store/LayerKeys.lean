import Askl.Library.LittleEndian
import Askl.Store.Tables

/-!
# The keys of the layer cache

A statement materialises, for every visible root, a base layer, one atom for each content
layer of the root's project, and a supplement of the root's chain.  Each is found again by a
SHA-256 hash of its inputs: a tag, and the fields that identify the layer, of a fixed length
or with their length before them.

The hash is a parameter.  What the results say of it, they say of the inputs that have been
hashed.

## Main definitions

* `Hash32` — a hash of 32 bytes.
* `rootSaltedInput`, `supplementInput`, `perLayerInput` — what the three keys hash.
* `LayerPart`, `LayerKey` — which layer of a statement a key is for, and with what inputs.

## Main results

* `LayerKey.same_of_input` — **equal inputs are those of one kind of layer**, with the same
  parent and the same base.
-/

namespace Askl

open LittleEndian

/-- `[u8; 32]`. -/
abbrev Hash32 := {bytes : Bytes // bytes.length = 32}

/-- One byte repeated. -/
def Hash32.fill (byte : UInt8) : Hash32 := ⟨List.replicate 32 byte, List.length_replicate⟩

/-- A hash for short runs. -/
def polynomialHash (input : Bytes) : Hash32 :=
  ⟨LittleEndian.leBytes 32 (input.foldl (fun n b => n * 257 + (b.toNat + 1)) 0),
    LittleEndian.length_leBytes 32 _⟩

/-- The bytes of a tag. -/
def tagBytes (tag : String) : Bytes := tag.toList.map fun c => UInt8.ofNat c.toNat

/-! ### The inputs -/

/-- What `root_salted_hash` hashes. -/
def rootSaltedInput (rootHash : Bytes) (baseHash : Hash32) : Bytes :=
  tagBytes "base-rooted-v2" ++ (leBytes 8 rootHash.length ++ (rootHash ++ baseHash.val))

/-- What `supplement_hash` hashes. -/
def supplementInput (parentId : ℤ) (baseHash : Hash32) (extra : Bytes) : Bytes :=
  tagBytes "eph-supplement-v1" ++
    (leBytes 8 parentId ++ (baseHash.val ++ (leBytes 8 extra.length ++ extra)))

/-- What `per_layer_hash` hashes. -/
def perLayerInput (layerId : ℤ) (baseHash : Hash32) : Bytes :=
  tagBytes "eph-perlayer-v1" ++ (leBytes 8 layerId ++ baseHash.val)

/-- The base hash is the end of the input, so the root's hash is what is left. -/
theorem rootSaltedInput_inj {rootHash rootHash' : Bytes} {baseHash baseHash' : Hash32}
    (h : rootSaltedInput rootHash baseHash = rootSaltedInput rootHash' baseHash') :
    rootHash = rootHash' ∧ baseHash = baseHash' := by
  have htail := (List.append_inj (List.append_cancel_left h) (by simp)).2
  obtain ⟨hroot, hbase⟩ := List.append_inj' htail (baseHash.2.trans baseHash'.2.symm)
  exact ⟨hroot, Subtype.ext hbase⟩

theorem supplementInput_inj {parentId parentId' : ℤ} {baseHash baseHash' : Hash32}
    {extra extra' : Bytes} (hp : Fits 7 parentId) (hp' : Fits 7 parentId')
    (h : supplementInput parentId baseHash extra = supplementInput parentId' baseHash' extra') :
    parentId = parentId' ∧ baseHash = baseHash' ∧ extra = extra' := by
  obtain ⟨hparent, hrest⟩ := leBytes_append_inj hp hp' (List.append_cancel_left h)
  obtain ⟨hbase, hrest⟩ := List.append_inj hrest (baseHash.2.trans baseHash'.2.symm)
  have hextra := (List.append_inj hrest (by simp)).2
  exact ⟨hparent, Subtype.ext hbase, hextra⟩

theorem perLayerInput_inj {layerId layerId' : ℤ} {baseHash baseHash' : Hash32}
    (hl : Fits 7 layerId) (hl' : Fits 7 layerId')
    (h : perLayerInput layerId baseHash = perLayerInput layerId' baseHash') :
    layerId = layerId' ∧ baseHash = baseHash' := by
  obtain ⟨hlayer, hbase⟩ := leBytes_append_inj hl hl' (List.append_cancel_left h)
  exact ⟨hlayer, Subtype.ext hbase⟩

/-! ### Keys -/

/-- Which layer of a root's batch: the base, the supplement on a chain's last layer, or the
atom of a content layer. -/
inductive LayerPart where
  | base
  | supplement (parentId : ℤ)
  | perLayer (layerId : ℤ)
  deriving DecidableEq, Repr

/-- `LayerRole`. -/
inductive LayerRole where
  | base
  | perLayer
  | supplement
  deriving DecidableEq, Repr

/-- The role of a layer. -/
def LayerPart.role : LayerPart → LayerRole
  | .base => .base
  | .supplement _ => .supplement
  | .perLayer _ => .perLayer

/-- The tags differ within their first five bytes. -/
def LayerRole.prefixBytes : LayerRole → Bytes
  | .base => tagBytes "base-"
  | .perLayer => tagBytes "eph-p"
  | .supplement => tagBytes "eph-s"

theorem LayerRole.prefixBytes_injective {r r' : LayerRole}
    (h : r.prefixBytes = r'.prefixBytes) : r = r' := by
  revert h
  cases r <;> cases r' <;> decide

/-- Ids are 64-bit integers. -/
def LayerPart.Fits : LayerPart → Prop
  | .base => True
  | .supplement parentId => LittleEndian.Fits 7 parentId
  | .perLayer layerId => LittleEndian.Fits 7 layerId

/-- A layer a statement asks for, with the inputs its key is derived from. -/
structure LayerKey where
  rootHash : Bytes
  baseHash : Hash32
  extra : Bytes
  part : LayerPart
  deriving DecidableEq

namespace LayerKey

variable (sha256 : Bytes → Hash32) (k : LayerKey)

/-- `root_salted_hash`. -/
def salted : Hash32 := sha256 (rootSaltedInput k.rootHash k.baseHash)

/-- What the key hashes. -/
def input : Bytes := match k.part with
  | .base => rootSaltedInput k.rootHash k.baseHash
  | .supplement parentId => supplementInput parentId (k.salted sha256) k.extra
  | .perLayer layerId => perLayerInput layerId (k.salted sha256)

/-- The key: `root_salted_hash`, `supplement_hash` or `per_layer_hash`. -/
def hash : Hash32 := sha256 (k.input sha256)

/-- Two keys for one kind of layer, with the same parent and the same base. -/
structure Same (k k' : LayerKey) : Prop where
  part : k.part = k'.part
  salted : k.salted sha256 = k'.salted sha256
  rootHash : k.part = .base → k.rootHash = k'.rootHash

variable {sha256} {k} {k' : LayerKey}

theorem hash_of_base (h : k.part = .base) : k.hash sha256 = k.salted sha256 := by
  rw [hash, input, h, salted]

theorem take_five_input : (k.input sha256).take 5 = k.part.role.prefixBytes := by
  unfold input
  cases k.part <;> rfl

/-- **Equal inputs are those of one kind of layer**, with the same parent and base. -/
theorem same_of_input (hk : k.part.Fits) (hk' : k'.part.Fits)
    (h : k.input sha256 = k'.input sha256) : Same sha256 k k' := by
  have hrole : k.part.role = k'.part.role := by
    apply LayerRole.prefixBytes_injective
    rw [← take_five_input, h, take_five_input]
  cases hpart : k.part with
  | base =>
    cases hpart' : k'.part with
    | base =>
      rw [input, input, hpart, hpart'] at h
      obtain ⟨hroot, hbase⟩ := rootSaltedInput_inj h
      refine ⟨hpart.trans hpart'.symm, ?_, fun _ => hroot⟩
      rw [salted, salted, hroot, hbase]
    | supplement _ | perLayer _ =>
      rw [hpart, hpart'] at hrole
      cases hrole
  | supplement p =>
    cases hpart' : k'.part with
    | supplement p' =>
      rw [input, input, hpart, hpart'] at h
      rw [hpart] at hk
      rw [hpart'] at hk'
      obtain ⟨rfl, hbase, -⟩ := supplementInput_inj hk hk' h
      exact ⟨hpart.trans hpart'.symm, hbase, fun hb => by rw [hpart] at hb; cases hb⟩
    | base | perLayer _ =>
      rw [hpart, hpart'] at hrole
      cases hrole
  | perLayer l =>
    cases hpart' : k'.part with
    | perLayer l' =>
      rw [input, input, hpart, hpart'] at h
      rw [hpart] at hk
      rw [hpart'] at hk'
      obtain ⟨rfl, hbase⟩ := perLayerInput_inj hk hk' h
      exact ⟨hpart.trans hpart'.symm, hbase, fun hb => by rw [hpart] at hb; cases hb⟩
    | base | supplement _ =>
      rw [hpart, hpart'] at hrole
      cases hrole

end LayerKey

end Askl
