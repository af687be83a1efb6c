import Askl.Index.EphContext
import Askl.Library.Fallible
import Askl.Store.LayerKeys

/-!
# Statements with several layers

A selector that creates a layer gives a specification: the key of its base, what its
supplement adds to a key, and the populates that fill the base, the supplement and the atom
of a content layer.  The specifications of a statement with two or more are merged into
one, keyed by all of them, whose populates run theirs.

The digest is a parameter.  What the results need of it is that it does not collide on the
streams they compare.

## Main definitions

* `PopulateSpec` — a specification, with its populates over the state of a transaction.
* `PopulateSpec.shardedScan` — the specification of a content scan.
* `partitionedComposite`, `aggregateLayerSpec` — the merge, and when it happens.
* `RunsInOrder` — populates that succeed one after another, with their flags.

## Main results

* `runPopulates_eq_ok_iff`, `runPopulates_eq_error_iff` — what a run of populates does.
* `partitionedComposite_keyed` — **a composite is keyed by all its parts and runs them all.**
-/

namespace Askl

open LittleEndian PrefixCode

/-! ### Specifications -/

/-- A `Vec<u8>`: the language bounds its length. -/
abbrev ByteVec := {bytes : Bytes // bytes.length < 2 ^ 63}

theorem ByteVec.nil_lt : ([] : Bytes).length < 2 ^ 63 := by decide

/-- `BaseLayerRef`. -/
structure BaseLayerRef where
  layerId : ℤ
  hash : Hash32
  deriving DecidableEq

section Specs

variable {σ ε : Type}

/-- A populate: it works on a transaction and tells whether a limit cut its rows.  A failed
one leaves no transaction. -/
abbrev LayerPopulate (σ ε : Type) := σ → Except ε (Bool × σ)

/-- `LayerSpec`. -/
structure PopulateSpec (σ ε : Type) where
  baseHash : Hash32
  basePopulate : RootLayer → LayerPopulate σ ε
  supplementPopulate : RootLayer → BaseLayerRef → LayerPopulate σ ε
  perLayerPopulate : Option (RootLayer → ℤ → BaseLayerRef → LayerPopulate σ ε)
  supplementExtra : ByteVec

/-- `LayerSpec::sharded_scan`: the base scans the root's layer, an atom its content layer,
and the supplement nothing. -/
def PopulateSpec.shardedScan (baseHash : Hash32)
    (scan : RootLayer → List ℤ → Bool → LayerPopulate σ ε) : PopulateSpec σ ε where
  baseHash := baseHash
  basePopulate root := scan root [root.id] false
  supplementPopulate _ _ txn := .ok (false, txn)
  perLayerPopulate := some fun root layerId _ => scan root [layerId] true
  supplementExtra := ⟨[], ByteVec.nil_lt⟩

/-- The loop of a composite populate. -/
def runPopulatesFrom : Bool → List (LayerPopulate σ ε) → LayerPopulate σ ε
  | truncated, [], txn => .ok (truncated, txn)
  | truncated, p :: ps, txn => match p txn with
    | .error e => .error e
    | .ok (t, txn) => runPopulatesFrom (truncated || t) ps txn

/-- A composite populate: each part's in turn, cut when one of them is. -/
def runPopulates (ps : List (LayerPopulate σ ε)) : LayerPopulate σ ε := runPopulatesFrom false ps

/-- What the key of a composite base hashes. -/
def compositeBaseStream (parts : List (PopulateSpec σ ε)) : Bytes :=
  tagBytes "composite-base-v1" ++ parts.flatMap (·.baseHash.val)

/-- What the extra of a composite hashes. -/
def compositeExtraStream (parts : List (PopulateSpec σ ε)) : Bytes :=
  tagBytes "composite-extra-v1" ++ parts.flatMap fun p =>
    leBytes 8 p.supplementExtra.val.length ++ p.supplementExtra.val

/-- A digest as a `Vec<u8>`. -/
def Hash32.toVec (h : Hash32) : ByteVec := ⟨h.val, by rw [h.2]; decide⟩

theorem Hash32.toVec_injective {h h' : Hash32} (heq : h.toVec = h'.toVec) : h = h' :=
  Subtype.ext (Subtype.mk.inj heq)

variable (sha256 : Bytes → Hash32)

/-- `partitioned_composite`. -/
def partitionedComposite (parts : List (PopulateSpec σ ε)) : PopulateSpec σ ε :=
  let perLayerPopulates := parts.filterMap (·.perLayerPopulate)
  { baseHash := sha256 (compositeBaseStream parts)
    basePopulate := fun root => runPopulates (parts.map fun p => p.basePopulate root)
    supplementPopulate := fun root baseRef =>
      runPopulates (parts.map fun p => p.supplementPopulate root baseRef)
    perLayerPopulate := if perLayerPopulates.isEmpty then none
      else some fun root layerId baseRef =>
        runPopulates (perLayerPopulates.map fun p => p root layerId baseRef)
    supplementExtra := if parts.all (·.supplementExtra.val.isEmpty) then ⟨[], by decide⟩
      else (sha256 (compositeExtraStream parts)).toVec }

/-- `aggregate_layer_spec`, over what the selectors answer. -/
def aggregateLayerSpec (answers : List (Except ε (Option (PopulateSpec σ ε)))) :
    Except ε (Option (PopulateSpec σ ε)) := do
  let specs ← answers.mapM id
  match specs.filterMap id with
  | [] => pure none
  | [spec] => pure (some spec)
  | specs => pure (some (partitionedComposite sha256 specs))

/-! ### Runs of populates -/

/-- Populates that succeed one after another, with the flag of each. -/
inductive RunsInOrder : List (LayerPopulate σ ε) → σ → List Bool → σ → Prop where
  | nil (txn : σ) : RunsInOrder [] txn [] txn
  | cons {p : LayerPopulate σ ε} {ps : List (LayerPopulate σ ε)} {txn txn' txn'' : σ} {t : Bool}
      {ts : List Bool} (head : p txn = .ok (t, txn')) (tail : RunsInOrder ps txn' ts txn'') :
      RunsInOrder (p :: ps) txn (t :: ts) txn''

theorem runPopulatesFrom_eq_ok_iff {ps : List (LayerPopulate σ ε)} :
    ∀ {truncated t : Bool} {txn txn' : σ}, runPopulatesFrom truncated ps txn = .ok (t, txn') ↔
      ∃ ts, RunsInOrder ps txn ts txn' ∧ t = (truncated || ts.any id) := by
  induction ps with
  | nil =>
    intro truncated t txn txn'
    rw [runPopulatesFrom]
    constructor
    · intro h
      obtain ⟨rfl, rfl⟩ := Prod.mk.inj (Except.ok.inj h)
      exact ⟨[], .nil txn, by simp⟩
    · rintro ⟨ts, hruns, rfl⟩
      cases hruns
      simp
  | cons p ps ih =>
    intro truncated t txn txn'
    rw [runPopulatesFrom]
    cases hp : p txn with
    | error e =>
      constructor
      · intro h
        cases h
      · rintro ⟨ts, hruns, -⟩
        cases hruns with
        | cons head tail =>
          rw [hp] at head
          cases head
    | ok r =>
      obtain ⟨t₁, txn₁⟩ := r
      dsimp only
      rw [ih]
      constructor
      · rintro ⟨ts, hruns, rfl⟩
        exact ⟨t₁ :: ts, .cons hp hruns, by simp [Bool.or_assoc]⟩
      · rintro ⟨ts, hruns, rfl⟩
        cases hruns with
        | cons head tail =>
          rw [hp] at head
          obtain ⟨rfl, rfl⟩ := Prod.mk.inj (Except.ok.inj head)
          exact ⟨_, tail, by simp [Bool.or_assoc]⟩

/-- **A composite populate succeeds when its parts do, in order, and is cut when one of
them is.** -/
theorem runPopulates_eq_ok_iff {ps : List (LayerPopulate σ ε)} {t : Bool} {txn txn' : σ} :
    runPopulates ps txn = .ok (t, txn') ↔
      ∃ ts, RunsInOrder ps txn ts txn' ∧ (t = true ↔ true ∈ ts) := by
  rw [runPopulates, runPopulatesFrom_eq_ok_iff]
  refine exists_congr fun ts => and_congr_right fun _ => ?_
  rw [Bool.false_or, Bool.eq_iff_iff, List.any_eq_true]
  simp

/-- **A composite populate fails with the first part that fails.** -/
theorem runPopulates_eq_error_iff {ps : List (LayerPopulate σ ε)} {e : ε} {txn : σ} :
    runPopulates ps txn = .error e ↔ ∃ before p after ts txn', ps = before ++ p :: after ∧
      RunsInOrder before txn ts txn' ∧ p txn' = .error e := by
  rw [runPopulates]
  suffices h : ∀ truncated, runPopulatesFrom truncated ps txn = .error e ↔
      ∃ before p after ts txn', ps = before ++ p :: after ∧
        RunsInOrder before txn ts txn' ∧ p txn' = .error e from h false
  induction ps generalizing txn with
  | nil =>
    intro truncated
    rw [runPopulatesFrom]
    constructor
    · intro h
      cases h
    · rintro ⟨before, p, after, ts, txn', h, -⟩
      exact absurd h.symm (List.append_ne_nil_of_right_ne_nil before (List.cons_ne_nil p after))
  | cons q ps ih =>
    intro truncated
    rw [runPopulatesFrom]
    cases hq : q txn with
    | error e' =>
      constructor
      · intro h
        obtain rfl := Except.error.inj h
        exact ⟨[], q, ps, [], txn, rfl, .nil txn, hq⟩
      · rintro ⟨before, p, after, ts, txn', hps, hruns, hp⟩
        cases hruns with
        | nil =>
          obtain ⟨rfl, rfl⟩ := List.cons.inj hps
          rw [hq] at hp
          exact hp
        | cons head tail =>
          obtain ⟨rfl, -⟩ := List.cons.inj hps
          rw [hq] at head
          cases head
    | ok r =>
      obtain ⟨t₁, txn₁⟩ := r
      dsimp only
      rw [ih]
      constructor
      · rintro ⟨before, p, after, ts, txn', rfl, hruns, hp⟩
        exact ⟨q :: before, p, after, t₁ :: ts, txn', rfl, .cons hq hruns, hp⟩
      · rintro ⟨before, p, after, ts, txn', hps, hruns, hp⟩
        cases hruns with
        | nil =>
          obtain ⟨rfl, rfl⟩ := List.cons.inj hps
          rw [hq] at hp
          cases hp
        | cons head tail =>
          obtain ⟨rfl, rfl⟩ := List.cons.inj hps
          rw [hq] at head
          obtain ⟨rfl, rfl⟩ := Prod.mk.inj (Except.ok.inj head)
          exact ⟨_, p, after, _, txn', rfl, tail, hp⟩

/-! ### Keys -/

theorem delimits_hash32 : Delimits (fun _ => True) fun h : Hash32 => h.val :=
  .of_length (fun a b _ _ => a.2.trans b.2.symm) fun _ _ _ _ h => Subtype.ext h

theorem delimits_byteVec :
    Delimits (fun _ => True) fun v : ByteVec => leBytes 8 v.val.length ++ v.val :=
  (Delimits.blob (delimits_count 8)).comap (fun v _ => lt_trans v.2 (by decide))
    fun _ _ _ _ h => Subtype.ext h

/-- The base hashes of the parts are read off the stream. -/
theorem compositeBaseStream_inj {parts parts' : List (PopulateSpec σ ε)}
    (h : compositeBaseStream parts = compositeBaseStream parts') :
    parts.map (·.baseHash) = parts'.map (·.baseHash) := by
  have hne : ∀ d : Hash32, d.val ≠ [] := by
    intro d hd
    have hlen := d.2
    rw [hd] at hlen
    cases hlen
  exact (delimits_hash32.uniquely hne).map_eq (fun _ _ => trivial) (fun _ _ => trivial)
    (List.append_cancel_left h)

/-- The extras of the parts are read off the stream. -/
theorem compositeExtraStream_inj {parts parts' : List (PopulateSpec σ ε)}
    (h : compositeExtraStream parts = compositeExtraStream parts') :
    parts.map (·.supplementExtra) = parts'.map (·.supplementExtra) := by
  have hne : ∀ v : ByteVec, leBytes 8 v.val.length ++ v.val ≠ [] := by
    intro v hv
    have hlen := congrArg List.length hv
    simp at hlen
  exact (delimits_byteVec.uniquely hne).map_eq (fun _ _ => trivial) (fun _ _ => trivial)
    (List.append_cancel_left h)

/-! ### Composites -/

/-- A populate that runs the given ones in order: it succeeds when they do, cut when one of
them is, and fails with the first that fails. -/
structure RunsAll (populate : LayerPopulate σ ε) (ps : List (LayerPopulate σ ε)) : Prop where
  ok : ∀ txn t txn', populate txn = .ok (t, txn') ↔
    ∃ ts, RunsInOrder ps txn ts txn' ∧ (t = true ↔ true ∈ ts)
  error : ∀ txn e, populate txn = .error e ↔ ∃ before p after ts txn',
    ps = before ++ p :: after ∧ RunsInOrder before txn ts txn' ∧ p txn' = .error e

theorem runsAll_runPopulates (ps : List (LayerPopulate σ ε)) : RunsAll (runPopulates ps) ps where
  ok _ _ _ := runPopulates_eq_ok_iff
  error _ _ := runPopulates_eq_error_iff

/-- A specification whose populates run those of the parts, in source order. -/
structure RunsParts (spec : PopulateSpec σ ε) (parts : List (PopulateSpec σ ε)) : Prop where
  base : ∀ root, RunsAll (spec.basePopulate root) (parts.map fun p => p.basePopulate root)
  supplement : ∀ root baseRef, RunsAll (spec.supplementPopulate root baseRef)
    (parts.map fun p => p.supplementPopulate root baseRef)
  perLayer_isSome : spec.perLayerPopulate.isSome = true ↔
    ∃ p ∈ parts, p.perLayerPopulate.isSome = true
  perLayer : ∀ f ∈ spec.perLayerPopulate, ∀ root layerId baseRef,
    RunsAll (f root layerId baseRef)
      ((parts.filterMap (·.perLayerPopulate)).map fun g => g root layerId baseRef)

variable {sha256}

/-- The populates of a composite run those of the parts. -/
theorem runsParts_partitionedComposite (parts : List (PopulateSpec σ ε)) :
    RunsParts (partitionedComposite sha256 parts) parts where
  base _ := runsAll_runPopulates _
  supplement _ _ := runsAll_runPopulates _
  perLayer_isSome := by
    have hempty : (parts.filterMap (·.perLayerPopulate)).isEmpty = true ↔
        ¬ ∃ p ∈ parts, p.perLayerPopulate.isSome = true := by
      simp [List.isEmpty_iff, List.filterMap_eq_nil_iff]
    simp only [partitionedComposite]
    split
    · next h => exact iff_of_false (by simp) (hempty.mp h)
    · next h => exact iff_of_true rfl (not_not.mp (mt hempty.mpr h))
  perLayer f hf root layerId baseRef := by
    simp only [partitionedComposite] at hf
    split at hf
    · cases hf
    · obtain rfl := Option.some.inj hf
      exact runsAll_runPopulates _

/-- The extra of a composite is empty when those of its parts are. -/
theorem supplementExtra_eq_nil_iff (parts : List (PopulateSpec σ ε)) :
    (partitionedComposite sha256 parts).supplementExtra.val = [] ↔
      ∀ p ∈ parts, p.supplementExtra.val = [] := by
  have hall : parts.all (·.supplementExtra.val.isEmpty) = true ↔
      ∀ p ∈ parts, p.supplementExtra.val = [] := by
    simp [List.all_eq_true]
  rw [← hall]
  simp only [partitionedComposite]
  split
  · next h => exact iff_of_true rfl h
  · next h =>
    refine iff_of_false (fun hnil => ?_) h
    have hlen := (sha256 (compositeExtraStream parts)).2
    have : (sha256 (compositeExtraStream parts)).val = [] := hnil
    rw [this] at hlen
    cases hlen

/-- A composite with an extra has the digest of those of its parts. -/
theorem supplementExtra_of_ne_nil {parts : List (PopulateSpec σ ε)}
    (h : (partitionedComposite sha256 parts).supplementExtra.val ≠ []) :
    (partitionedComposite sha256 parts).supplementExtra =
      (sha256 (compositeExtraStream parts)).toVec := by
  simp only [partitionedComposite] at h ⊢
  split
  · next hall => rw [if_pos hall] at h; exact absurd rfl h
  · rfl

/-- **A composite is keyed by all its parts and runs them all**, when the digest does not
collide on the streams that are compared. -/
theorem partitionedComposite_keyed (sha256 : Bytes → Hash32)
    (parts parts' : List (PopulateSpec σ ε))
    (hbase : NoCollision sha256 (compositeBaseStream parts) (compositeBaseStream parts'))
    (hextra : NoCollision sha256 (compositeExtraStream parts) (compositeExtraStream parts')) :
    ((partitionedComposite sha256 parts).baseHash =
        (partitionedComposite sha256 parts').baseHash →
      parts.map (·.baseHash) = parts'.map (·.baseHash)) ∧
    ((partitionedComposite sha256 parts).supplementExtra.val ≠ [] →
      (partitionedComposite sha256 parts).supplementExtra =
        (partitionedComposite sha256 parts').supplementExtra →
      parts.map (·.supplementExtra) = parts'.map (·.supplementExtra)) ∧
    ((partitionedComposite sha256 parts).supplementExtra.val = [] ↔
      ∀ p ∈ parts, p.supplementExtra.val = []) ∧
    RunsParts (partitionedComposite sha256 parts) parts := by
  refine ⟨fun h => ?_, fun hne h => ?_, supplementExtra_eq_nil_iff parts,
    runsParts_partitionedComposite parts⟩
  · exact compositeBaseStream_inj (hbase h)
  · have hne' : (partitionedComposite sha256 parts').supplementExtra.val ≠ [] := h ▸ hne
    rw [supplementExtra_of_ne_nil hne, supplementExtra_of_ne_nil hne'] at h
    exact compositeExtraStream_inj (hextra (Hash32.toVec_injective h))

/-- A statement with two or more specifications gets their composite. -/
theorem aggregateLayerSpec_composite {answers : List (Except ε (Option (PopulateSpec σ ε)))}
    {specs : List (Option (PopulateSpec σ ε))} (hanswers : answers.mapM id = .ok specs)
    (htwo : 2 ≤ (specs.filterMap id).length) :
    aggregateLayerSpec sha256 answers =
      .ok (some (partitionedComposite sha256 (specs.filterMap id))) := by
  simp only [aggregateLayerSpec, hanswers]
  change (match specs.filterMap id with
    | [] => pure none
    | [spec] => pure (some spec)
    | specs => pure (some (partitionedComposite sha256 specs)) :
      Except ε (Option (PopulateSpec σ ε))) = _
  match hspecs : specs.filterMap id with
  | [] => rw [hspecs] at htwo; cases htwo
  | [_] => rw [hspecs] at htwo; simp at htwo
  | _ :: _ :: _ => rfl

end Specs

/-! ### A sample of two parts -/

/-- A part that adds a byte to the transaction, with the given extra. -/
def samplePart (byte : UInt8) (extra : ByteVec) : PopulateSpec Bytes Unit where
  baseHash := polynomialHash [byte]
  basePopulate _ txn := .ok (byte = 7, txn ++ [byte])
  supplementPopulate _ _ txn := .ok (false, txn)
  perLayerPopulate := none
  supplementExtra := extra

/-- Two parts in either order, one of them with an extra. -/
def sampleParts : List (PopulateSpec Bytes Unit) :=
  [samplePart 1 ⟨[], by decide⟩, samplePart 7 ⟨[1, 2, 3], by decide⟩]

/-- The order of the parts is kept by both keys. -/
theorem partitionedComposite_keyed_sample :
    (NoCollision polynomialHash (compositeBaseStream sampleParts)
        (compositeBaseStream sampleParts.reverse) ∧
      NoCollision polynomialHash (compositeExtraStream sampleParts)
        (compositeExtraStream sampleParts.reverse)) ∧
    ((partitionedComposite polynomialHash sampleParts).baseHash =
        (partitionedComposite polynomialHash sampleParts.reverse).baseHash →
      sampleParts.map (·.baseHash) = sampleParts.reverse.map (·.baseHash)) ∧
    RunsParts (partitionedComposite polynomialHash sampleParts) sampleParts := by
  have hbase : NoCollision polynomialHash (compositeBaseStream sampleParts)
      (compositeBaseStream sampleParts.reverse) :=
    fun h => absurd h (by decide +kernel)
  have hextra : NoCollision polynomialHash (compositeExtraStream sampleParts)
      (compositeExtraStream sampleParts.reverse) :=
    fun h => absurd h (by decide +kernel)
  obtain ⟨hkeys, -, -, hruns⟩ :=
    partitionedComposite_keyed polynomialHash sampleParts sampleParts.reverse hbase hextra
  exact ⟨⟨hbase, hextra⟩, hkeys, hruns⟩

end Askl
