import Askl.Library.Utf8
import Askl.Index.Filters
import Askl.Store.LayerKeys
import Askl.Store.UploadRows

/-!
# The hash of a filter tree

A verb whose layer depends on the filters of its command mixes the filter tree into the key
of the layer.  The tree is written out before its children, with the number of children
after the byte of a conjunction or a disjunction, and a leaf writes its tag and its fields.
Texts have their length before them; tags have not.

## Main definitions

* `CompositeFilter.hashInto`, `FilterLeaf.hashInto` — the bytes a tree and a leaf write.
* `FilterLeaf.Constructed` — what the types and the constructors of the leaves promise.
* `CompositeFilter.All` — a condition on every leaf and every number of children.

## Main results

* `FilterLeaf.delimits_hashInto`, `CompositeFilter.hashInto_append_inj` — a leaf and a tree
  are read off the head of a stream.
* `CompositeFilter.hashInto_determines` — **equal streams are those of one tree, and no
  stream is the beginning of another.**
* `CompositeFilter.hashInto_ambiguous` — not so when a leaf has 2 ^ 32 ids.
-/

namespace Askl

open LittleEndian PrefixCode Utf8

/-! ### Paths as text -/

/-- A label: the characters that `is_leaf_char` leaves, and at least one. -/
def IsLabel (t : Text) : Prop := t ≠ [] ∧ ∀ c ∈ t, isLeafChar c = true

instance (t : Text) : Decidable (IsLabel t) := inferInstanceAs (Decidable (_ ∧ _))

/-- The labels with dots between them. -/
def joinLabels (labels : List Text) : Text := ['.'].intercalate labels

/-- An item of an `lquery` as text. -/
def LqueryItem.text : LqueryItem → Text
  | .any => ['*']
  | .label l => l

/-- An item whose label is one. -/
def LqueryItem.Constructed : LqueryItem → Prop
  | .any => True
  | .label l => IsLabel l

/-- Dots are not in labels, so a text is split into its labels again. -/
theorem joinLabels_inj {labels labels' : List Text} (hne : labels ≠ []) (hne' : labels' ≠ [])
    (hdot : ∀ l ∈ labels, '.' ∉ l) (hdot' : ∀ l ∈ labels', '.' ∉ l)
    (h : joinLabels labels = joinLabels labels') : labels = labels' := by
  rw [← List.splitOn_intercalate '.' hdot hne, ← List.splitOn_intercalate '.' hdot' hne']
  exact congrArg (List.splitOn '.') h

theorem IsLabel.not_mem_of {t : Text} (h : IsLabel t) {c : Char} (hc : isLeafChar c = false) :
    c ∉ t := by
  intro hmem
  rw [h.2 c hmem] at hc
  cases hc

theorem LqueryItem.Constructed.dot_notMem {item : LqueryItem} (h : item.Constructed) :
    '.' ∉ item.text := by
  cases item with
  | any => decide
  | label l => exact IsLabel.not_mem_of h (by decide)

/-- A label is not a star. -/
theorem LqueryItem.text_inj {item item' : LqueryItem} (h : item.Constructed)
    (h' : item'.Constructed) (htext : item.text = item'.text) : item = item' := by
  cases item with
  | any =>
    cases item' with
    | any => rfl
    | label l =>
      obtain rfl : ['*'] = l := htext
      exact absurd (List.mem_singleton_self '*') (IsLabel.not_mem_of h' (by decide))
  | label l =>
    cases item' with
    | any =>
      obtain rfl : l = ['*'] := htext
      exact absurd (List.mem_singleton_self '*') (IsLabel.not_mem_of h (by decide))
    | label l' => exact congrArg LqueryItem.label htext

/-- `build_lquery` renders its items. -/
def lqueryText (items : List LqueryItem) : Text := joinLabels (items.map LqueryItem.text)

/-- What `build_lquery` promises of its items. -/
def LqueryConstructed (items : List LqueryItem) : Prop :=
  items ≠ [] ∧ ∀ item ∈ items, item.Constructed

/-- What `symbol_name_to_path` promises of its labels. -/
def PathConstructed (path : Ltree) : Prop := path ≠ [] ∧ ∀ l ∈ path, IsLabel l

theorem map_text_inj : ∀ {q q' : List LqueryItem}, (∀ item ∈ q, item.Constructed) →
    (∀ item ∈ q', item.Constructed) → q.map LqueryItem.text = q'.map LqueryItem.text → q = q'
  | [], [], _, _, _ => rfl
  | [], _ :: _, _, _, h => by cases h
  | _ :: _, [], _, _, h => by cases h
  | item :: q, item' :: q', hq, hq', h => by
    obtain ⟨hhead, htail⟩ := List.cons.inj h
    rw [LqueryItem.text_inj (hq item List.mem_cons_self) (hq' item' List.mem_cons_self) hhead,
      map_text_inj (fun x hx => hq x (.tail _ hx)) (fun x hx => hq' x (.tail _ hx)) htail]

theorem lqueryText_inj {q q' : List LqueryItem} (h : LqueryConstructed q)
    (h' : LqueryConstructed q') (htext : lqueryText q = lqueryText q') : q = q' := by
  have hdot : ∀ {p : List LqueryItem}, LqueryConstructed p →
      ∀ l ∈ p.map LqueryItem.text, '.' ∉ l := by
    intro p hp l hl
    obtain ⟨item, hitem, rfl⟩ := List.mem_map.mp hl
    exact (hp.2 item hitem).dot_notMem
  have hmap := joinLabels_inj (by simpa using h.1) (by simpa using h'.1) (hdot h) (hdot h') htext
  exact map_text_inj h.2 h'.2 hmap

theorem PathConstructed.joinLabels_inj {path path' : Ltree} (h : PathConstructed path)
    (h' : PathConstructed path') (htext : joinLabels path = joinLabels path') : path = path' :=
  Askl.joinLabels_inj h.1 h'.1 (fun l hl => (h.2 l hl).not_mem_of (by decide))
    (fun l hl => (h'.2 l hl).not_mem_of (by decide)) htext

/-! ### Constructors -/

/-- The labels that `normalize_symbol_tokens` leaves. -/
theorem isLabel_of_mem_normalizeSymbolTokens {input label : Text}
    (h : label ∈ normalizeSymbolTokens input) : IsLabel label := by
  obtain ⟨token, -, htoken⟩ := List.mem_filterMap.mp h
  dsimp only at htoken
  split at htoken
  · cases htoken
  · next hne =>
    obtain rfl := Option.some.inj htoken
    exact ⟨by simpa using hne, fun c hc => (List.mem_filter.mp hc).2⟩

/-- `symbol_name_to_path` gives a path. -/
theorem pathConstructed_symbolNameToPath (input : Text) :
    PathConstructed (symbolNameToPath input) := by
  unfold symbolNameToPath
  dsimp only
  split
  · refine ⟨List.cons_ne_nil _ _, fun l hl => ?_⟩
    rw [List.mem_singleton.mp hl]
    exact ⟨List.cons_ne_nil _ _, List.all_eq_true.mp (rfl : unknownLabel.all isLeafChar = true)⟩
  · next hne =>
    exact ⟨by simpa using hne, fun l hl => isLabel_of_mem_normalizeSymbolTokens hl⟩

/-- The dots of a name that does not separate by them. -/
def replaceDots (dotIsSeparator : Bool) (name : Text) : Text :=
  if dotIsSeparator then name else name.map fun c => if c == '.' then '_' else c

/-- The loop of `build_lquery`: any labels after every token, but for an anchored last one. -/
def lqueryParts (anchorLeaf : Bool) : List Text → List LqueryItem
  | [] => []
  | [token] => if anchorLeaf then [.label token] else [.label token, .any]
  | token :: tokens => .label token :: .any :: lqueryParts anchorLeaf tokens

/-- `build_lquery`. -/
def buildLquery (input : Text) (anchorLeaf dotIsSeparator : Bool) : Option (List LqueryItem) :=
  let tokens := normalizeSymbolTokens (replaceDots dotIsSeparator input)
  if tokens.isEmpty then none else some (.any :: lqueryParts anchorLeaf tokens)

/-- `extract_leaf_token`. -/
def extractLeafToken (name : Text) (dotIsSeparator : Bool) : Text :=
  (normalizeSymbolTokens (replaceDots dotIsSeparator name)).getLastD unknownLabel

/-- `CompoundNameMixin::with_options`. -/
def FilterLeaf.compoundNameWithOptions (name : Text) (leafAnchored dotIsSeparator : Bool) :
    FilterLeaf :=
  .compoundName (buildLquery name leafAnchored dotIsSeparator)
    (if leafAnchored then some (extractLeafToken name dotIsSeparator) else none)

/-- `PackageDescendantLeaf::new`. -/
def FilterLeaf.newPackageDescendant (package : Text) : Option FilterLeaf :=
  let path := symbolNameToPath package
  if path = [unknownLabel] then none else some (.packageDescendant path)

theorem constructed_lqueryParts {anchorLeaf : Bool} : ∀ {tokens : List Text},
    (∀ l ∈ tokens, IsLabel l) → ∀ item ∈ lqueryParts anchorLeaf tokens, item.Constructed
  | [], _, item, hitem => by cases hitem
  | [token], h, item, hitem => by
    have htoken := h token List.mem_cons_self
    cases anchorLeaf with
    | false =>
      rcases List.mem_pair.mp hitem with rfl | rfl
      · exact htoken
      · trivial
    | true =>
      obtain rfl := List.mem_singleton.mp hitem
      exact htoken
  | token :: token' :: tokens, h, item, hitem => by
    rcases List.mem_cons.mp hitem with rfl | hitem
    · exact h token List.mem_cons_self
    · rcases List.mem_cons.mp hitem with rfl | hitem
      · trivial
      · exact constructed_lqueryParts (fun l hl => h l (.tail _ hl)) item hitem

theorem lqueryConstructed_buildLquery {input : Text} {anchorLeaf dotIsSeparator : Bool}
    {q : List LqueryItem} (h : buildLquery input anchorLeaf dotIsSeparator = some q) :
    LqueryConstructed q := by
  simp only [buildLquery] at h
  split at h
  · cases h
  · obtain rfl := Option.some.inj h
    refine ⟨by simp, fun item hitem => ?_⟩
    rcases List.mem_cons.mp hitem with rfl | hitem
    · trivial
    · exact constructed_lqueryParts (fun l hl => isLabel_of_mem_normalizeSymbolTokens hl) item
        hitem

/-! ### Leaves -/

namespace FilterLeaf

/-- The kinds of leaves. -/
inductive Kind where
  | compoundName | leafName | globName | fullNameGlob | exactName | symbolInstanceId
  | projectFilter | directOnly | innermostOnly | outerParent | symbolType
  | defaultSymbolType | packageDescendant
  deriving DecidableEq, Repr

/-- The tag a leaf writes first. -/
def Kind.tag : Kind → Bytes
  | compoundName => tagBytes "CompoundName"
  | leafName => tagBytes "LeafName"
  | globName => tagBytes "GlobName"
  | fullNameGlob => tagBytes "FullNameGlob"
  | exactName => tagBytes "ExactName"
  | symbolInstanceId => tagBytes "SymbolInstanceId"
  | projectFilter => tagBytes "Project"
  | directOnly => tagBytes "DirectOnly"
  | innermostOnly => tagBytes "InnermostOnly"
  | outerParent => tagBytes "OuterParent"
  | symbolType => tagBytes "SymbolType"
  | defaultSymbolType => tagBytes "DefaultSymbolType"
  | packageDescendant => tagBytes "PackageDescendant"

/-- The kind of a leaf. -/
def kind : FilterLeaf → Kind
  | compoundName .. => .compoundName
  | leafName _ => .leafName
  | globName .. => .globName
  | fullNameGlob .. => .fullNameGlob
  | exactName _ => .exactName
  | symbolInstanceId _ => .symbolInstanceId
  | projectFilter _ => .projectFilter
  | directOnly => .directOnly
  | innermostOnly => .innermostOnly
  | outerParent _ => .outerParent
  | symbolType _ => .symbolType
  | defaultSymbolType _ => .defaultSymbolType
  | packageDescendant _ => .packageDescendant

/-- A text, with its length as a `u32` before it. -/
def hashText (t : Text) : Bytes := leBytes 4 (utf8 t).length ++ utf8 t

/-- A flag byte. -/
def hashFlag (b : Bool) : Bytes := [if b then 1 else 0]

/-- Ids of `n` bytes, with their number as a `u32` before them. -/
def hashIdList (n : ℕ) (ids : List ℤ) : Bytes := leBytes 4 ids.length ++ ids.flatMap (leBytes n)

/-- What a leaf writes after its tag. -/
def hashFields : FilterLeaf → Bytes
  | compoundName q l =>
    optionCode 0 1 hashText (q.map lqueryText) ++ optionCode 0 1 hashText l
  | leafName n => hashText n
  | globName p cs => hashText p ++ hashFlag cs
  | fullNameGlob p cs => hashText p ++ hashFlag cs
  | exactName n => hashText n
  | symbolInstanceId ids => hashIdList 8 ids
  | projectFilter n => hashText n
  | directOnly => []
  | innermostOnly => []
  | outerParent ids => hashIdList 8 ids
  | symbolType t => leBytes 4 t
  | defaultSymbolType ts => hashIdList 4 ts
  | packageDescendant b => hashText (joinLabels b)

/-- `FilterLeaf::hash_into`. -/
def hashInto (l : FilterLeaf) : Bytes := l.kind.tag ++ l.hashFields

/-- What the constructors and the integer types of a leaf promise. -/
def Constructed : FilterLeaf → Prop
  | compoundName q _ => ∀ items ∈ q, LqueryConstructed items
  | symbolInstanceId ids => ∀ id ∈ ids, Fits 7 id
  | outerParent ids => ∀ id ∈ ids, Fits 7 id
  | symbolType t => Fits 3 t
  | defaultSymbolType ts => ∀ t ∈ ts, Fits 3 t
  | packageDescendant b => PathConstructed b
  | _ => True

/-- A length that fits 32 bits. -/
def TextFits (t : Text) : Prop := (utf8 t).length < 256 ^ 4

instance (t : Text) : Decidable (TextFits t) :=
  decidable_of_iff ((t.flatMap String.utf8EncodeChar).length < 256 ^ 4)
    (by rw [TextFits, utf8_eq_flatMap])

/-- The string lengths fit 32 bits. -/
def StringsFit : FilterLeaf → Prop
  | compoundName q l => (∀ t ∈ q.map lqueryText, TextFits t) ∧ ∀ t ∈ l, TextFits t
  | leafName n => TextFits n
  | globName p _ => TextFits p
  | fullNameGlob p _ => TextFits p
  | exactName n => TextFits n
  | projectFilter n => TextFits n
  | packageDescendant b => TextFits (joinLabels b)
  | _ => True

/-- The numbers of ids fit 32 bits. -/
def IdListsFit : FilterLeaf → Prop
  | symbolInstanceId ids => ids.length < 256 ^ 4
  | outerParent ids => ids.length < 256 ^ 4
  | defaultSymbolType ts => ts.length < 256 ^ 4
  | _ => True

/-- `CompoundNameMixin::with_options` builds a leaf that promises. -/
theorem constructed_compoundNameWithOptions (name : Text) (leafAnchored dotIsSeparator : Bool) :
    (compoundNameWithOptions name leafAnchored dotIsSeparator).Constructed :=
  fun _ h => lqueryConstructed_buildLquery h

/-- `PackageDescendantLeaf::new` builds a leaf that promises. -/
theorem constructed_newPackageDescendant {package : Text} {l : FilterLeaf}
    (h : newPackageDescendant package = some l) : l.Constructed := by
  simp only [newPackageDescendant] at h
  split at h
  · cases h
  · obtain rfl := Option.some.inj h
    exact pathConstructed_symbolNameToPath package

/-- No tag is the beginning of another. -/
theorem Kind.eq_of_tag_prefix (k l : Kind) (h : k.tag <+: l.tag) : k = l := by
  revert h
  cases k <;> cases l <;> decide

theorem delimits_hashText : Delimits TextFits hashText :=
  (Delimits.blob (delimits_count 4)).comap (fun _ h => h) fun _ _ _ _ h => utf8_injective h

theorem delimits_hashFlag : Delimits (fun _ => True) hashFlag :=
  .of_length (fun _ _ _ _ => rfl) fun a b _ _ h => by
    revert h
    cases a <;> cases b <;> decide

theorem delimits_hashIdList (n : ℕ) :
    Delimits (fun ids : List ℤ => ids.length < 256 ^ 4 ∧ ∀ id ∈ ids, Fits n id)
      (hashIdList (n + 1)) :=
  (delimits_word n).counted (delimits_count 4)

/-- A leaf whose stream is taken apart: constructed, and with lengths that fit. -/
structure Hashable (l : FilterLeaf) : Prop where
  constructed : l.Constructed
  strings : l.StringsFit
  ids : l.IdListsFit

/-- A qualifier is determined by its text, and so is its absence. -/
theorem map_lqueryText_inj {q q' : Option (List LqueryItem)}
    (hq : ∀ items ∈ q, LqueryConstructed items) (hq' : ∀ items ∈ q', LqueryConstructed items)
    (h : q.map lqueryText = q'.map lqueryText) : q = q' := by
  cases q with
  | none =>
    cases q' with
    | none => rfl
    | some _ => cases h
  | some q =>
    cases q' with
    | none => cases h
    | some q' => rw [lqueryText_inj (hq q rfl) (hq' q' rfl) (Option.some.inj h)]

/-- A pattern and whether case counts. -/
theorem hashGlob_append_inj {p p' : Text} {c c' : Bool} {s t : Bytes} (hp : TextFits p)
    (hp' : TextFits p') (h : hashText p ++ hashFlag c ++ s = hashText p' ++ hashFlag c' ++ t) :
    (p = p' ∧ c = c') ∧ s = t := by
  obtain ⟨hfields, hrest⟩ := (delimits_hashText.pair delimits_hashFlag) (a := (p, c))
    (b := (p', c')) ⟨hp, trivial⟩ ⟨hp', trivial⟩ h
  exact ⟨Prod.mk.inj hfields, hrest⟩

/-- The fields of two leaves of one kind. -/
theorem hashFields_append_inj {a b : FilterLeaf} {s t : Bytes} (ha : a.Hashable)
    (hb : b.Hashable) (hkind : a.kind = b.kind) (h : a.hashFields ++ s = b.hashFields ++ t) :
    a = b ∧ s = t := by
  obtain ⟨hca, hsa, hia⟩ := ha
  obtain ⟨hcb, hsb, hib⟩ := hb
  cases a with
  | compoundName q l =>
    cases b with
    | compoundName q' l' =>
      have hoption : Delimits _ (optionCode (0 : UInt8) 1 hashText) :=
        delimits_hashText.option (by decide)
      obtain ⟨hfields, hrest⟩ := (hoption.pair hoption) (a := (q.map lqueryText, l))
        (b := (q'.map lqueryText, l')) hsa hsb h
      obtain ⟨hq, rfl⟩ := Prod.mk.inj hfields
      exact ⟨by rw [map_lqueryText_inj hca hcb hq], hrest⟩
    | _ => cases hkind
  | leafName n =>
    cases b with
    | leafName n' =>
      obtain ⟨rfl, hrest⟩ := delimits_hashText hsa hsb h
      exact ⟨rfl, hrest⟩
    | _ => cases hkind
  | globName p c =>
    cases b with
    | globName p' c' =>
      obtain ⟨⟨rfl, rfl⟩, hrest⟩ := hashGlob_append_inj hsa hsb h
      exact ⟨rfl, hrest⟩
    | _ => cases hkind
  | fullNameGlob p c =>
    cases b with
    | fullNameGlob p' c' =>
      obtain ⟨⟨rfl, rfl⟩, hrest⟩ := hashGlob_append_inj hsa hsb h
      exact ⟨rfl, hrest⟩
    | _ => cases hkind
  | exactName n =>
    cases b with
    | exactName n' =>
      obtain ⟨rfl, hrest⟩ := delimits_hashText hsa hsb h
      exact ⟨rfl, hrest⟩
    | _ => cases hkind
  | symbolInstanceId ids =>
    cases b with
    | symbolInstanceId ids' =>
      obtain ⟨rfl, hrest⟩ := delimits_hashIdList 7 ⟨hia, hca⟩ ⟨hib, hcb⟩ h
      exact ⟨rfl, hrest⟩
    | _ => cases hkind
  | projectFilter n =>
    cases b with
    | projectFilter n' =>
      obtain ⟨rfl, hrest⟩ := delimits_hashText hsa hsb h
      exact ⟨rfl, hrest⟩
    | _ => cases hkind
  | directOnly =>
    cases b with
    | directOnly => exact ⟨rfl, h⟩
    | _ => cases hkind
  | innermostOnly =>
    cases b with
    | innermostOnly => exact ⟨rfl, h⟩
    | _ => cases hkind
  | outerParent ids =>
    cases b with
    | outerParent ids' =>
      obtain ⟨rfl, hrest⟩ := delimits_hashIdList 7 ⟨hia, hca⟩ ⟨hib, hcb⟩ h
      exact ⟨rfl, hrest⟩
    | _ => cases hkind
  | symbolType id =>
    cases b with
    | symbolType id' =>
      obtain ⟨rfl, hrest⟩ := delimits_word 3 hca hcb h
      exact ⟨rfl, hrest⟩
    | _ => cases hkind
  | defaultSymbolType ids =>
    cases b with
    | defaultSymbolType ids' =>
      obtain ⟨rfl, hrest⟩ := delimits_hashIdList 3 ⟨hia, hca⟩ ⟨hib, hcb⟩ h
      exact ⟨rfl, hrest⟩
    | _ => cases hkind
  | packageDescendant p =>
    cases b with
    | packageDescendant p' =>
      obtain ⟨htext, hrest⟩ := delimits_hashText hsa hsb h
      exact ⟨congrArg packageDescendant (PathConstructed.joinLabels_inj hca hcb htext), hrest⟩
    | _ => cases hkind

/-- A leaf is read off the head of a stream. -/
theorem delimits_hashInto : Delimits Hashable hashInto :=
  Delimits.sum Kind.eq_of_tag_prefix fun _ _ _ _ ha hb hkind h =>
    hashFields_append_inj ha hb hkind h

end FilterLeaf

/-! ### Trees -/

namespace CompositeFilter

mutual

/-- `CompositeFilter::hash_into`. -/
def hashInto : CompositeFilter → Bytes
  | .leaf l => 0 :: l.hashInto
  | .and cs => 1 :: (leBytes 4 cs.length ++ hashChildren cs)
  | .or cs => 2 :: (leBytes 4 cs.length ++ hashChildren cs)
  | .not c => 3 :: hashInto c

/-- The children, in order. -/
def hashChildren : List CompositeFilter → Bytes
  | [] => []
  | c :: cs => hashInto c ++ hashChildren cs

end

mutual

/-- A condition on every leaf of a tree and on every number of children. -/
def All (okLeaf : FilterLeaf → Prop) (okCount : ℕ → Prop) : CompositeFilter → Prop
  | .leaf l => okLeaf l
  | .and cs => okCount cs.length ∧ AllChildren okLeaf okCount cs
  | .or cs => okCount cs.length ∧ AllChildren okLeaf okCount cs
  | .not c => All okLeaf okCount c

/-- The condition on the children of a tree. -/
def AllChildren (okLeaf : FilterLeaf → Prop) (okCount : ℕ → Prop) : List CompositeFilter → Prop
  | [] => True
  | c :: cs => All okLeaf okCount c ∧ AllChildren okLeaf okCount cs

end

/-- Child counts and string lengths fit 32 bits. -/
def LengthsFit : CompositeFilter → Prop :=
  All (fun l => l.Constructed ∧ l.StringsFit) fun k => k < 256 ^ 4

/-- The numbers of ids fit 32 bits as well. -/
def Hashable : CompositeFilter → Prop := All FilterLeaf.Hashable fun k => k < 256 ^ 4

mutual

/-- A tree is read off the head of a stream. -/
theorem hashInto_append_inj : ∀ (f g : CompositeFilter) (s t : Bytes), f.Hashable →
    g.Hashable → f.hashInto ++ s = g.hashInto ++ t → f = g ∧ s = t
  | .leaf l, .leaf l', s, t, hf, hg, h => by
    rw [Hashable, All] at hf hg
    rw [hashInto, hashInto] at h
    obtain ⟨rfl, hrest⟩ := FilterLeaf.delimits_hashInto hf hg (List.cons.inj h).2
    exact ⟨rfl, hrest⟩
  | .and cs, .and ds, s, t, hf, hg, h | .or cs, .or ds, s, t, hf, hg, h => by
    rw [Hashable, All] at hf hg
    rw [hashInto, hashInto, List.cons_append, List.cons_append, List.append_assoc,
      List.append_assoc] at h
    obtain ⟨hlen, hrest⟩ := delimits_count 4 hf.1 hg.1 (List.cons.inj h).2
    obtain ⟨rfl, hst⟩ := hashChildren_append_inj cs ds s t hf.2 hg.2 hlen hrest
    exact ⟨rfl, hst⟩
  | .not c, .not d, s, t, hf, hg, h => by
    rw [Hashable, All] at hf hg
    rw [hashInto, hashInto] at h
    obtain ⟨rfl, hrest⟩ := hashInto_append_inj c d s t hf hg (List.cons.inj h).2
    exact ⟨rfl, hrest⟩
  | .leaf _, .and _, _, _, _, _, h | .leaf _, .or _, _, _, _, _, h
  | .leaf _, .not _, _, _, _, _, h | .and _, .leaf _, _, _, _, _, h
  | .and _, .or _, _, _, _, _, h | .and _, .not _, _, _, _, _, h
  | .or _, .leaf _, _, _, _, _, h | .or _, .and _, _, _, _, _, h
  | .or _, .not _, _, _, _, _, h | .not _, .leaf _, _, _, _, _, h
  | .not _, .and _, _, _, _, _, h | .not _, .or _, _, _, _, _, h => by
    rw [hashInto, hashInto] at h
    exact absurd (List.cons.inj h).1 (by decide)

/-- As many children are read off the head of a stream. -/
theorem hashChildren_append_inj : ∀ (cs ds : List CompositeFilter) (s t : Bytes),
    AllChildren FilterLeaf.Hashable (fun k => k < 256 ^ 4) cs →
    AllChildren FilterLeaf.Hashable (fun k => k < 256 ^ 4) ds → cs.length = ds.length →
    hashChildren cs ++ s = hashChildren ds ++ t → cs = ds ∧ s = t
  | [], [], _, _, _, _, _, h => ⟨rfl, h⟩
  | [], _ :: _, _, _, _, _, hlen, _ | _ :: _, [], _, _, _, _, hlen, _ => by cases hlen
  | c :: cs, d :: ds, s, t, hc, hd, hlen, h => by
    rw [AllChildren] at hc hd
    rw [hashChildren, hashChildren, List.append_assoc, List.append_assoc] at h
    obtain ⟨rfl, hrest⟩ := hashInto_append_inj c d _ _ hc.1 hd.1 h
    obtain ⟨rfl, hst⟩ := hashChildren_append_inj cs ds s t hc.2 hd.2 (Nat.succ.inj hlen) hrest
    exact ⟨rfl, hst⟩

end

/-- Trees delimit themselves. -/
theorem delimits_hashInto : Delimits Hashable hashInto :=
  fun f g s t hf hg h => hashInto_append_inj f g s t hf hg h

/-- **Equal streams are those of one tree, and no stream is the beginning of another**, for
trees whose child counts, string lengths and numbers of ids fit 32 bits. -/
theorem hashInto_determines (f g : CompositeFilter) (hf : f.Hashable) (hg : g.Hashable) :
    (f.hashInto = g.hashInto → f = g) ∧ (f.hashInto <+: g.hashInto → f = g) :=
  ⟨delimits_hashInto.eq_of_eq hf hg, delimits_hashInto.eq_of_prefix hf hg⟩

/-- The filters of a command, one of them a list with the given id. -/
def sampleFilter (id : ℤ) : CompositeFilter :=
  .and [.leaf (.compoundNameWithOptions ['a', '/', 'b'] true true),
    .not (.leaf (.symbolInstanceId [7, id])), .or [.leaf .directOnly, .leaf (.symbolType 2)]]

theorem hashable_sampleFilter {id : ℤ} (hid : Fits 7 id) : (sampleFilter id).Hashable := by
  have hids : ∀ i ∈ [7, id], Fits 7 i := by
    intro i hi
    rcases List.mem_pair.mp hi with rfl | rfl
    · decide
    · exact hid
  have hname : (FilterLeaf.compoundNameWithOptions ['a', '/', 'b'] true true).StringsFit := by
    constructor <;> decide +kernel
  have htype : (FilterLeaf.symbolType 2).Constructed := by
    change Fits 3 2
    decide
  have hcount : ∀ k ∈ [2, 3], k < 256 ^ 4 := by decide
  refine ⟨hcount 3 (by decide), ?_, ?_, ⟨hcount 2 (by decide), ?_, ?_, trivial⟩, trivial⟩
  · exact ⟨FilterLeaf.constructed_compoundNameWithOptions _ _ _, hname, trivial⟩
  · exact ⟨hids, trivial, hcount 2 (by decide)⟩
  · exact ⟨trivial, trivial, trivial⟩
  · exact ⟨htype, trivial, trivial⟩

/-- Another id makes another stream. -/
theorem hashInto_determines_sample :
    ((sampleFilter 1).Hashable ∧ (sampleFilter 2).Hashable) ∧
      ((sampleFilter 1).hashInto = (sampleFilter 2).hashInto → sampleFilter 1 = sampleFilter 2) ∧
      ((sampleFilter 1).hashInto <+: (sampleFilter 2).hashInto →
        sampleFilter 1 = sampleFilter 2) := by
  have hone : (sampleFilter 1).Hashable := hashable_sampleFilter (by decide)
  have htwo : (sampleFilter 2).Hashable := hashable_sampleFilter (by decide)
  exact ⟨⟨hone, htwo⟩, hashInto_determines (sampleFilter 1) (sampleFilter 2) hone htwo⟩

/-- A number of ids that its 32 bits do not show is followed by the ids all the same. -/
theorem prefix_hashInto_symbolInstanceId {ids : List ℤ}
    (h : leBytes 4 (ids.length : ℤ) = leBytes 4 0) :
    hashInto (.leaf (.symbolInstanceId [])) <+: hashInto (.leaf (.symbolInstanceId ids)) := by
  refine ⟨ids.flatMap (leBytes 8), ?_⟩
  simp only [hashInto, FilterLeaf.hashInto, FilterLeaf.hashFields, FilterLeaf.hashIdList, h,
    FilterLeaf.kind, List.length_nil, List.flatMap_nil, List.append_nil, List.cons_append,
    List.append_assoc, Nat.cast_zero]

/-- **With 2 ^ 32 ids in a leaf the stream of another tree is the beginning of its own**,
although all child counts and string lengths fit. -/
theorem hashInto_ambiguous : ¬ ∀ f g : CompositeFilter, f.LengthsFit → g.LengthsFit →
    (f.hashInto = g.hashInto → f = g) ∧ (f.hashInto <+: g.hashInto → f = g) := by
  intro h
  have hids : ∀ id ∈ List.replicate (2 ^ 32) (0 : ℤ), Fits 7 id := by
    intro id hid
    rw [List.eq_of_mem_replicate hid]
    decide
  have hlen : leBytes 4 ((List.replicate (2 ^ 32) (0 : ℤ)).length : ℤ) = leBytes 4 0 := by
    rw [List.length_replicate]
    decide
  have heq := (h (.leaf (.symbolInstanceId [])) (.leaf (.symbolInstanceId _))
    ⟨by simp [FilterLeaf.Constructed], trivial⟩ ⟨hids, trivial⟩).2
    (prefix_hashInto_symbolInstanceId hlen)
  injection heq with hleaf
  injection hleaf with hnil
  have := congrArg List.length hnil
  rw [List.length_replicate] at this
  cases this

end CompositeFilter

end Askl
