import Askl.Store.Filed

/-!
# The content store

Contents are stored under their hashes, and objects name the hashes.  A hash that a client
sends with a batch of contents is compared with the hash of the content after white space is
cut off, and stored as it was sent.

## Main definitions

* `hexDigest` — the hash of a content, in lower-case hex.
* `Store.ContentStoreRight` — rows have their contents' hashes, and objects have rows.
* `Request.Clean` — a request that is no batch of contents the server takes with white space
  around a hash.

## Main results

* `Store.handle_contentGrows` — what each request does to the contents and the objects.
* `objectsPresent_handleAll` — the hashes that objects name are always present.
* `contentStoreRight_handleAll_iff` — the store is right as long as every request is clean.
-/

namespace Askl

/-! ### Hashes -/

/-- A hexadecimal digit, in lower case. -/
def hexDigit (n : ℕ) : Char := if n < 10 then Char.ofNat (48 + n) else Char.ofNat (87 + n)

/-- The two digits of a byte, `{:02x}`. -/
def hexByte (b : UInt8) : Text := [hexDigit (b.toNat / 16), hexDigit (b.toNat % 16)]

/-- `hash_bytes`, over the hash of a content. -/
def hexDigest (sha256 : Bytes → Hash32) (content : Bytes) : Text :=
  (sha256 content).val.flatMap hexByte

theorem not_isWhitespace_hexDigit : ∀ n < 16, isWhitespace (hexDigit n) = false := by decide

theorem not_isWhitespace_hexByte (b : UInt8) : ∀ c ∈ hexByte b, isWhitespace c = false := by
  have hb := b.toNat_lt
  intro c hc
  rcases List.mem_cons.mp hc with rfl | hc
  · exact not_isWhitespace_hexDigit _ (by omega)
  · obtain rfl := List.mem_singleton.mp hc
    exact not_isWhitespace_hexDigit _ (by omega)

section Hash

variable (sha256 : Bytes → Hash32)

theorem not_isWhitespace_hexDigest (content : Bytes) :
    ∀ c ∈ hexDigest sha256 content, isWhitespace c = false := by
  intro c hc
  obtain ⟨b, -, hc⟩ := List.mem_flatMap.mp hc
  exact not_isWhitespace_hexByte b c hc

theorem length_hexDigest (content : Bytes) : (hexDigest sha256 content).length = 64 := by
  have hflat : ∀ bytes : Bytes, (bytes.flatMap hexByte).length = bytes.length * 2 := by
    intro bytes
    induction bytes with
    | nil => rfl
    | cons b bytes ih =>
      rw [List.flatMap_cons, List.length_append, ih, List.length_cons, Nat.succ_mul]
      exact Nat.add_comm _ _
  rw [hexDigest, hflat, (sha256 content).property]

end Hash

/-- Nothing is cut off a text without white space. -/
theorem trim_eq_self {t : Text} (h : ∀ c ∈ t, isWhitespace c = false) : trim t = t := by
  have hdrop : ∀ {t : Text}, (∀ c ∈ t, isWhitespace c = false) →
      t.dropWhile isWhitespace = t := by
    intro t ht
    cases t with
    | nil => rfl
    | cons c t =>
      rw [List.dropWhile_cons_of_neg]
      rw [ht c List.mem_cons_self]
      exact Bool.false_ne_true
  rw [trim, hdrop h, hdrop fun c hc => h c (List.mem_reverse.mp hc), List.reverse_reverse]

namespace Store

/-! ### What is in the store -/

/-- A hash is present. -/
def Present (s : Store) (contentHash : Text) : Prop :=
  ∃ row ∈ s.contentStore, row.contentHash = contentHash

/-- The hash of a row is that of its content. -/
def RowsRight (hashBytes : Bytes → Text) (s : Store) : Prop :=
  ∀ row ∈ s.contentStore, row.contentHash = hashBytes row.content

/-- The hashes that objects name are present. -/
def ObjectsPresent (s : Store) : Prop := ∀ o ∈ s.objects, s.Present o.row.contentHash

/-- The content store is what it should be. -/
def ContentStoreRight (hashBytes : Bytes → Text) (s : Store) : Prop :=
  s.RowsRight hashBytes ∧ s.ObjectsPresent

/-- What a request may do to the contents and the objects: no content goes, the new ones are
good, and an object names the hash that one has named, or one that is present. -/
structure ContentGrows (good : NewContentStoreRow → Prop) (s s' : Store) : Prop where
  kept : ∀ row ∈ s.contentStore, row ∈ s'.contentStore
  rows : ∀ row ∈ s'.contentStore, row ∈ s.contentStore ∨ good row
  objects : ∀ o ∈ s'.objects, s'.Present o.row.contentHash ∨
    ∃ o' ∈ s.objects, o'.row.contentHash = o.row.contentHash

variable {good : NewContentStoreRow → Prop} {s s' s'' : Store} {hashBytes : Bytes → Text}

theorem ContentGrows.of_eq (hcontents : s'.contentStore = s.contentStore)
    (hobjects : ∀ o ∈ s'.objects, o ∈ s.objects) : ContentGrows good s s' where
  kept _ hrow := hcontents ▸ hrow
  rows _ hrow := Or.inl (hcontents ▸ hrow)
  objects o ho := Or.inr ⟨o, hobjects o ho, rfl⟩

theorem ContentGrows.refl (s : Store) : ContentGrows good s s := .of_eq rfl fun _ ho => ho

theorem Present.mono (h : ContentGrows good s s') {contentHash : Text}
    (hp : s.Present contentHash) : s'.Present contentHash := by
  obtain ⟨row, hrow, hhash⟩ := hp
  exact ⟨row, h.kept row hrow, hhash⟩

theorem ContentGrows.trans (h : ContentGrows good s s') (h' : ContentGrows good s' s'') :
    ContentGrows good s s'' where
  kept row hrow := h'.kept row (h.kept row hrow)
  rows row hrow := (h'.rows row hrow).elim (h.rows row) Or.inr
  objects o ho := by
    rcases h'.objects o ho with hpresent | ⟨o', ho', hhash⟩
    · exact Or.inl hpresent
    · rcases h.objects o' ho' with hpresent | ⟨o'', ho'', hhash'⟩
      · exact Or.inl (hhash ▸ hpresent.mono h')
      · exact Or.inr ⟨o'', ho'', hhash'.trans hhash⟩

/-! ### Contents -/

theorem contentGrows_insertContent {row : NewContentStoreRow} (hgood : good row) (s : Store) :
    ContentGrows good s (s.insertContent row) ∧
      (s.insertContent row).Present row.contentHash := by
  unfold insertContent
  split
  · next hmem =>
    obtain ⟨row', hrow', hhash⟩ := List.any_eq_true.mp hmem
    exact ⟨.refl s, row', hrow', beq_iff_eq.mp hhash⟩
  · refine ⟨⟨fun row' hrow' => List.mem_append_left _ hrow', fun row' hrow' => ?_,
      fun o ho => Or.inr ⟨o, ho, rfl⟩⟩, row, by simp, rfl⟩
    rcases List.mem_append.mp hrow' with hrow' | hrow'
    · exact Or.inl hrow'
    · obtain rfl := List.mem_singleton.mp hrow'
      exact Or.inr hgood

/-- The contents that are inserted are kept, and their hashes are present. -/
theorem contentGrows_insertContents {rows : List NewContentStoreRow}
    (hgood : ∀ row ∈ rows, good row) (s : Store) :
    ContentGrows good s (rows.foldl insertContent s) ∧
      ∀ row ∈ rows, (rows.foldl insertContent s).Present row.contentHash := by
  induction rows generalizing s with
  | nil => exact ⟨.refl s, List.forall_mem_nil _⟩
  | cons row rows ih =>
    obtain ⟨hrow, hrows⟩ := List.forall_mem_cons.mp hgood
    obtain ⟨hgrows, hpresent⟩ := contentGrows_insertContent hrow s
    obtain ⟨hrest, hpresents⟩ := ih hrows (s.insertContent row)
    exact ⟨hgrows.trans hrest, List.forall_mem_cons.mpr ⟨hpresent.mono hrest, hpresents⟩⟩

/-! ### Objects -/

/-- What an object of a chunk brings along: its content and the content's hash, or the hash
of a content that is there already. -/
def Brings (hashBytes : Bytes → Text) (s : Store) (e : ObjectInsert) : Prop :=
  match e.content with
  | some content => e.row.contentHash = hashBytes content
  | none => s.Present e.row.contentHash

theorem content_of_buildObjectsFrom {projectId rootLayerId : ℤ} {objects : List UploadObject}
    {seen : List ℤ} {inserts : List ObjectInsert}
    (h : buildObjectsFrom hashBytes projectId rootLayerId seen objects = .ok inserts) :
    ∀ e ∈ inserts, (∃ content, e.content = some content ∧
      e.row.contentHash = hashBytes content) ∨ e.content = none ∧ e.row.contentHash ≠ [] := by
  intro e he
  obtain ⟨object, -, hentry⟩ := insertOf_of_mem h e he
  exact hentry.content

/-- A chunk whose missing hashes are none brings its contents along, or they are there. -/
theorem brings_of_missingHashes {inserts : List ObjectInsert}
    (hbuilt : ∀ e ∈ inserts, (∃ content, e.content = some content ∧
      e.row.contentHash = hashBytes content) ∨ e.content = none ∧ e.row.contentHash ≠ [])
    (hmissing : (s.missingHashes inserts).isEmpty = true) :
    ∀ e ∈ inserts, Brings hashBytes s e := by
  intro e he
  rcases hbuilt e he with ⟨content, hcontent, hhash⟩ | ⟨hnone, hne⟩
  · rw [Brings, hcontent]
    exact hhash
  · rw [Brings, hnone]
    by_contra habsent
    have hmem : e.row.contentHash ∈ s.missingHashes inserts := by
      refine List.mem_filter.mpr ⟨List.mem_eraseDups.mpr (List.mem_map.mpr ⟨e,
        List.mem_filter.mpr ⟨he, ?_⟩, rfl⟩), ?_⟩
      · rw [hnone, Bool.and_eq_true, Bool.not_eq_true', List.isEmpty_eq_false_iff]
        exact ⟨rfl, hne⟩
      · rw [Bool.not_eq_true', List.any_eq_false]
        exact fun row hrow hhash => habsent ⟨row, hrow, beq_iff_eq.mp hhash⟩
    rw [List.isEmpty_iff] at hmissing
    rw [hmissing] at hmem
    cases hmem

/-- The objects after an upsert are old ones, or name the hash of the entry. -/
theorem contentHash_upsertObject {c : Store × ObjectMap} {e : ObjectInsert} :
    (upsertObject c e).1.contentStore = c.1.contentStore ∧
      ∀ o ∈ (upsertObject c e).1.objects, o ∈ c.1.objects ∨
        o.row.contentHash = e.row.contentHash := by
  unfold upsertObject
  split
  · refine ⟨rfl, fun o ho => ?_⟩
    obtain ⟨old, hold, rfl⟩ := List.mem_map.mp ho
    split
    · exact Or.inr rfl
    · exact Or.inl hold
  · refine ⟨rfl, fun o ho => ?_⟩
    rcases List.mem_append.mp ho with ho | ho
    · exact Or.inl ho
    · obtain rfl := List.mem_singleton.mp ho
      exact Or.inr rfl

theorem contentHash_upsertObjects {c : Store × ObjectMap} (rows : List ObjectInsert) :
    (rows.foldl upsertObject c).1.contentStore = c.1.contentStore ∧
      ∀ o ∈ (rows.foldl upsertObject c).1.objects, o ∈ c.1.objects ∨
        ∃ e ∈ rows, o.row.contentHash = e.row.contentHash := by
  induction rows generalizing c with
  | nil => exact ⟨rfl, fun o ho => Or.inl ho⟩
  | cons e rows ih =>
    obtain ⟨hcontents, hobjects⟩ := contentHash_upsertObject (c := c) (e := e)
    obtain ⟨hrest, hrestObjects⟩ := ih (c := upsertObject c e)
    refine ⟨hrest.trans hcontents, fun o ho => ?_⟩
    rcases hrestObjects o ho with ho | ⟨e', he', hhash⟩
    · rcases hobjects o ho with ho | hhash
      · exact Or.inl ho
      · exact Or.inr ⟨e, List.mem_cons_self, hhash⟩
    · exact Or.inr ⟨e', .tail _ he', hhash⟩

/-- One statement puts the contents it brings along under their hashes. -/
theorem contentGrows_insertObjectRows {c c' : Store × ObjectMap} {rows : List ObjectInsert}
    (hrows : ∀ e ∈ rows, Brings hashBytes c.1 e) (h : insertObjectRows c rows = .ok c') :
    ContentGrows (fun row => row.contentHash = hashBytes row.content) c.1 c'.1 := by
  unfold insertObjectRows at h
  split at h
  swap
  · cases h
  obtain rfl := Except.ok.inj h
  obtain ⟨hcontents, hobjects⟩ := contentHash_upsertObjects (c := c) rows
  let good (row : NewContentStoreRow) : Prop := row.contentHash = hashBytes row.content
  have hgood : ∀ row ∈ rows.filterMap fun e => e.content.map fun content =>
      (⟨e.row.contentHash, content⟩ : NewContentStoreRow), good row := by
    intro row hrow
    obtain ⟨e, he, hrow⟩ := List.mem_filterMap.mp hrow
    obtain ⟨content, hcontent, rfl⟩ := Option.map_eq_some_iff.mp hrow
    have hbrings := hrows e he
    rw [Brings, hcontent] at hbrings
    exact hbrings
  obtain ⟨hgrows, hpresent⟩ := contentGrows_insertContents hgood (rows.foldl upsertObject c).1
  refine ⟨fun row hrow => hgrows.kept row (hcontents ▸ hrow), fun row hrow => ?_, fun o ho => ?_⟩
  · rcases hgrows.rows row hrow with hrow | hrow
    · exact Or.inl (hcontents ▸ hrow)
    · exact Or.inr hrow
  · rw [objects_insertContents] at ho
    rcases hobjects o ho with ho | ⟨e, he, hhash⟩
    · exact Or.inr ⟨o, ho, rfl⟩
    · left
      have hbrings := hrows e he
      rw [Brings] at hbrings
      rw [hhash]
      cases hcontent : e.content with
      | some content =>
        exact hpresent ⟨e.row.contentHash, content⟩
          (List.mem_filterMap.mpr ⟨e, he, by rw [hcontent]; rfl⟩)
      | none =>
        rw [hcontent] at hbrings
        obtain ⟨row, hrow, hrowHash⟩ := hbrings
        exact ⟨row, hgrows.kept row (hcontents.symm ▸ hrow), hrowHash⟩

theorem Brings.mono (h : ContentGrows good s s') {e : ObjectInsert} (he : Brings hashBytes s e) :
    Brings hashBytes s' e := by
  unfold Brings at he ⊢
  split
  · next hcontent => rwa [hcontent] at he
  · next hcontent =>
    rw [hcontent] at he
    exact he.mono h

/-- An object chunk puts contents under their hashes, and its objects name hashes that are
present. -/
theorem contentGrows_doUploadObjects {projectId : ℤ} {upload : UploadProject}
    (h : s.doUploadObjects hashBytes projectId upload = .ok s') :
    ContentGrows (fun row => row.contentHash = hashBytes row.content) s s' := by
  obtain ⟨root, inserts, inserted, -, hinserts, hmissing, hinserted, _, _, _, _, rfl⟩ :=
    doUploadObjects_stages h
  have hbrings := brings_of_missingHashes (content_of_buildObjectsFrom hinserts) hmissing
  have hobjects : ContentGrows (fun row => row.contentHash = hashBytes row.content) s
      inserted.1 := by
    refine Fallible.invariant_of_foldlM (I := fun c : Store × ObjectMap =>
      ContentGrows (fun row => row.contentHash = hashBytes row.content) s c.1)
      (fun statement hstatement c c' hc hc' => ?_) hinserted (.refl s)
    obtain ⟨k, -, rfl⟩ := List.mem_map.mp hstatement
    refine hc.trans (contentGrows_insertObjectRows (fun e he => (hbrings e ?_).mono hc) hc')
    exact List.mem_of_mem_drop (List.mem_of_mem_take he)
  exact hobjects.trans (.of_eq rfl fun o ho => ho)

/-! ### Requests -/

/-- What makes a row of a request good: it has its content's hash, or it is an entry of a
batch of contents as it was sent, its hash right but for white space around it. -/
def RowOf (hashBytes : Bytes → Text) (req : Request) (row : NewContentStoreRow) : Prop :=
  row.contentHash = hashBytes row.content ∨ ∃ contents, req = .contents contents ∧
    (∀ e ∈ contents, trim e.contentHash = hashBytes e.content) ∧
    ∃ e ∈ contents, row = ⟨e.contentHash, e.content⟩

theorem ContentGrows.imp {good' : NewContentStoreRow → Prop} (h : ContentGrows good s s')
    (himp : ∀ row, good row → good' row) : ContentGrows good' s s' :=
  ⟨h.kept, fun row hrow => (h.rows row hrow).imp_right (himp row), h.objects⟩

/-- What a batch that is taken has been checked for. -/
theorem checkContents_eq_ok {contents : List ObjectContent} {rows : List NewContentStoreRow}
    (h : contents.mapM (checkContent hashBytes) = .ok rows) :
    (∀ e ∈ contents, trim e.contentHash = hashBytes e.content) ∧
      rows = contents.map fun e => ⟨e.contentHash, e.content⟩ := by
  induction contents generalizing rows with
  | nil =>
    obtain rfl := Except.ok.inj h
    exact ⟨List.forall_mem_nil _, rfl⟩
  | cons e contents ih =>
    rw [List.mapM_cons] at h
    obtain ⟨row, hrow, h⟩ := Fallible.bind_eq_ok.mp h
    obtain ⟨rest, hrest, h⟩ := Fallible.bind_eq_ok.mp h
    obtain rfl := Except.ok.inj h
    obtain ⟨hcontents, rfl⟩ := ih hrest
    unfold checkContent at hrow
    dsimp only at hrow
    split at hrow
    · cases hrow
    split at hrow
    · cases hrow
    · next hhash =>
      obtain rfl := Except.ok.inj hrow
      exact ⟨List.forall_mem_cons.mpr ⟨(not_not.mp hhash).symm, hcontents⟩, rfl⟩

/-- A batch with the right hashes is taken, as long as no content has the empty hash. -/
theorem checkContents_of_trim (hne : ∀ content, hashBytes content ≠ [])
    {contents : List ObjectContent}
    (h : ∀ e ∈ contents, trim e.contentHash = hashBytes e.content) :
    contents.mapM (checkContent hashBytes) =
      .ok (contents.map fun e => ⟨e.contentHash, e.content⟩) := by
  induction contents with
  | nil => rfl
  | cons e contents ih =>
    obtain ⟨he, hcontents⟩ := List.forall_mem_cons.mp h
    have hcheck : checkContent hashBytes e = .ok ⟨e.contentHash, e.content⟩ := by
      unfold checkContent
      dsimp only
      rw [if_neg (by rw [he]; simpa using hne e.content), if_neg (not_not.mpr he.symm)]
    rw [List.mapM_cons, hcheck, ih hcontents]
    rfl

theorem contentGrows_deleteProject (projectId : ℤ) :
    ContentGrows good s (s.deleteProject projectId).store := by
  have hkept : ∀ o ∈ (((s.deleteSymbolRange projectId).keepSymbols
      (·.projectId != projectId)).keepObjects (·.row.projectId != projectId)).objects,
        o ∈ s.objects := fun o ho => List.mem_of_mem_filter ho
  unfold deleteProject
  split
  · exact .of_eq rfl fun o ho => hkept o (List.mem_of_mem_filter ho)
  · exact .of_eq rfl fun o ho => hkept o (List.mem_of_mem_filter (List.mem_of_mem_filter ho))

/-- **What each request does to the contents and the objects.** -/
theorem handle_contentGrows {req : Request} {c : Committed Response}
    (h : s.handle hashBytes req = .ok c) : ContentGrows (RowOf hashBytes req) s c.store := by
  cases handle_cases h with
  | resumed | symbolChunkAgain | objectChunkAgain | notFinalized | notMarked => exact .refl s
  | @created upload symbolTotal objectTotal rootHash s' created _ hcleared hcreated =>
    have hgone : ContentGrows (RowOf hashBytes (.uploadIndex upload symbolTotal objectTotal
        rootHash)) s s' := by
      rcases hcleared with ⟨rfl, -⟩ | ⟨z, -, -, -, rfl⟩
      · exact .refl _
      · exact .of_eq rfl fun o ho => List.mem_of_mem_filter (List.mem_of_mem_filter ho)
    obtain ⟨_, _, _, _, hframe⟩ := insertProject_frame hcreated
    rw [hframe]
    exact hgone.trans (.of_eq rfl fun _ ho => ho)
  | symbolChunk hnew hproject hinsert =>
    obtain ⟨rows, rfl⟩ := insertSymbols_frame hinsert
    exact .of_eq rfl fun o ho => ho
  | @objectChunk projectId seq upload s' hnew hproject hinsert =>
    have hrecord : ContentGrows (RowOf hashBytes (.objectChunk projectId seq upload)) s
        (s.recordObjectChunk projectId seq) := .of_eq rfl fun _ ho => ho
    exact hrecord.trans ((contentGrows_doUploadObjects hinsert).imp fun _ => Or.inl)
  | @contents contents rows _ hrows =>
    obtain ⟨hchecked, rfl⟩ := checkContents_eq_ok hrows
    refine (contentGrows_insertContents (fun row hrow => ?_) s).1
    obtain ⟨e, he, rfl⟩ := List.mem_map.mp hrow
    exact Or.inr ⟨contents, rfl, hchecked, e, he, rfl⟩
  | finalized => exact .of_eq rfl fun o ho => ho
  | marked => exact .of_eq rfl fun _ ho => ho
  | deleted => exact contentGrows_deleteProject _

/-- Objects name hashes that are present, after every request. -/
theorem ObjectsPresent.mono (hs : s.ObjectsPresent) (h : ContentGrows good s s') :
    s'.ObjectsPresent := by
  intro o ho
  rcases h.objects o ho with hpresent | ⟨o', ho', hhash⟩
  · exact hpresent
  · exact hhash ▸ (hs o' ho').mono h

end Store

/-! ### Runs -/

/-- A request that is no batch of contents the server takes with white space around a hash. -/
def Request.Clean (hashBytes : Bytes → Text) : Request → Prop
  | .contents batch => (∀ e ∈ batch, trim e.contentHash = hashBytes e.content) →
      ∀ e ∈ batch, trim e.contentHash = e.contentHash
  | _ => True

/-- The store after requests, one after the other; a transaction that fails is rolled back. -/
def Store.handleAll (hashBytes : Bytes → Text) : Store → List Request → Store
  | s, [] => s
  | s, req :: reqs => match s.handle hashBytes req with
    | .error _ => handleAll hashBytes s reqs
    | .ok c => handleAll hashBytes c.store reqs

section Runs

variable {sha256 : Bytes → Hash32} {s : Store}

/-- A clean request leaves rows with the hashes of their contents. -/
theorem rowsRight_handle {hashBytes : Bytes → Text} {req : Request} {c : Committed Response}
    (hs : s.RowsRight hashBytes) (hclean : req.Clean hashBytes)
    (h : s.handle hashBytes req = .ok c) : c.store.RowsRight hashBytes := by
  intro row hrow
  rcases (Store.handle_contentGrows h).rows row hrow with hold | hright |
    ⟨contents, rfl, hchecked, e, he, rfl⟩
  · exact hs row hold
  · exact hright
  · exact (hclean hchecked e he).symm.trans (hchecked e he)

/-- Requests only add contents. -/
theorem mem_contentStore_handleAll {hashBytes : Bytes → Text} {row : NewContentStoreRow}
    {reqs : List Request} (hrow : row ∈ s.contentStore) :
    row ∈ (s.handleAll hashBytes reqs).contentStore := by
  induction reqs generalizing s with
  | nil => exact hrow
  | cons req reqs ih =>
    rw [Store.handleAll]
    split
    · exact ih hrow
    · next hc => exact ih ((Store.handle_contentGrows hc).kept row hrow)

/-- **The hashes that objects name are always present.** -/
theorem objectsPresent_handleAll {hashBytes : Bytes → Text} {reqs : List Request}
    (hs : s.ObjectsPresent) : (s.handleAll hashBytes reqs).ObjectsPresent := by
  induction reqs generalizing s with
  | nil => exact hs
  | cons req reqs ih =>
    rw [Store.handleAll]
    split
    · exact ih hs
    · next hc => exact ih (hs.mono (Store.handle_contentGrows hc))

/-- A request that is not clean leaves a row whose hash has white space around it. -/
theorem exists_padded_of_not_clean {req : Request} (hclean : ¬ req.Clean (hexDigest sha256)) :
    ∃ c, s.handle (hexDigest sha256) req = .ok c ∧
      ∃ row ∈ c.store.contentStore, row.contentHash ≠ hexDigest sha256 row.content := by
  cases req with
  | contents contents =>
    rw [Request.Clean, Classical.not_imp, not_forall] at hclean
    obtain ⟨hchecked, e, hpadded⟩ := hclean
    rw [Classical.not_imp] at hpadded
    obtain ⟨he, hpadded⟩ := hpadded
    have hne : ∀ content, hexDigest sha256 content ≠ [] := by
      intro content hnil
      have hlength := length_hexDigest sha256 content
      rw [hnil] at hlength
      cases hlength
    have hrows := Store.checkContents_of_trim hne hchecked
    refine ⟨_, by
      rw [Store.handle, Store.uploadContents, hrows]
      rfl, ?_⟩
    -- the hash is in the store as it was sent, whatever its content
    have hmem : (⟨e.contentHash, e.content⟩ : NewContentStoreRow) ∈
        contents.map fun e => ⟨e.contentHash, e.content⟩ := List.mem_map_of_mem he
    obtain ⟨row, hrow, hhash⟩ : Store.Present _ e.contentHash :=
      (Store.contentGrows_insertContents (fun _ _ => trivial) s).2 _ hmem
    refine ⟨row, hrow, fun hright => hpadded ?_⟩
    rw [← hhash, hright]
    exact trim_eq_self (not_isWhitespace_hexDigest sha256 row.content)
  | uploadIndex => exact absurd (show True from trivial) hclean
  | symbolChunk => exact absurd (show True from trivial) hclean
  | objectChunk => exact absurd (show True from trivial) hclean
  | finalize => exact absurd (show True from trivial) hclean
  | markDeleting => exact absurd (show True from trivial) hclean
  | deleteProject => exact absurd (show True from trivial) hclean

theorem rowsRight_handleAll_iff {reqs : List Request} (hs : s.RowsRight (hexDigest sha256)) :
    (s.handleAll (hexDigest sha256) reqs).RowsRight (hexDigest sha256) ↔
      ∀ req ∈ reqs, req.Clean (hexDigest sha256) := by
  induction reqs generalizing s with
  | nil => exact ⟨fun _ => List.forall_mem_nil _, fun _ => hs⟩
  | cons req reqs ih =>
    rw [List.forall_mem_cons, Store.handleAll]
    by_cases hclean : req.Clean (hexDigest sha256)
    · rw [and_iff_right hclean]
      split
      · exact ih hs
      · next hc => exact ih (rowsRight_handle hs hclean hc)
    · obtain ⟨c, hc, row, hrow, hwrong⟩ := exists_padded_of_not_clean (s := s) hclean
      rw [hc]
      refine ⟨fun hright => absurd (hright row (mem_contentStore_handleAll hrow)) hwrong,
        fun hall => absurd hall.1 hclean⟩

/-- **The content store is right as long as every request is clean.** -/
theorem contentStoreRight_handleAll_iff (sha256 : Bytes → Hash32) (canaryRootHash : Bytes)
    (reqs : List Request) :
    ((Store.initial canaryRootHash).handleAll (hexDigest sha256) reqs).ContentStoreRight
        (hexDigest sha256) ↔
      ∀ req ∈ reqs, req.Clean (hexDigest sha256) := by
  have hobjects : (Store.initial canaryRootHash).ObjectsPresent := List.forall_mem_nil _
  rw [Store.ContentStoreRight, and_iff_left (objectsPresent_handleAll hobjects)]
  exact rowsRight_handleAll_iff (List.forall_mem_nil _)

/-- The SHA-256 hash of the empty content. -/
def sha256Empty : Hash32 :=
  ⟨[0xe3, 0xb0, 0xc4, 0x42, 0x98, 0xfc, 0x1c, 0x14, 0x9a, 0xfb, 0xf4, 0xc8, 0x99, 0x6f, 0xb9, 0x24,
    0x27, 0xae, 0x41, 0xe4, 0x64, 0x9b, 0x93, 0x4c, 0xa4, 0x95, 0x99, 0x1b, 0x78, 0x52, 0xb8, 0x55],
    rfl⟩

/-- **A hash with a space in front is stored with it.** -/
theorem not_contentStoreRight_padded :
    ¬ ((Store.initial [1]).handleAll (hexDigest fun _ => sha256Empty)
      [.contents [⟨' ' :: hexDigest (fun _ => sha256Empty) [], []⟩]]).ContentStoreRight
        (hexDigest fun _ => sha256Empty) := by
  set hash := hexDigest (fun _ => sha256Empty) [] with hhash
  have htrim : trim (' ' :: hash) = hash :=
    (show trim (' ' :: hash) = trim hash from rfl).trans
      (trim_eq_self (not_isWhitespace_hexDigest _ _))
  have hclean : ¬ (Request.contents [⟨' ' :: hash, []⟩]).Clean
      (hexDigest fun _ => sha256Empty) := by
    intro hclean
    have hself : trim (' ' :: hash) = ' ' :: hash :=
      hclean (List.forall_mem_singleton.mpr htrim) _ (List.mem_singleton_self _)
    rw [htrim] at hself
    exact absurd (congrArg List.length hself) (by rw [List.length_cons]; omega)
  obtain ⟨c, hc, row, hrow, hwrong⟩ :=
    exists_padded_of_not_clean (s := Store.initial [1]) hclean
  rintro ⟨hrows, -⟩
  rw [Store.handleAll, hc] at hrows
  exact hwrong (hrows row hrow)

end Runs

end Askl
