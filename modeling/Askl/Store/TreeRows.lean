import Askl.Library.Keyed
import Askl.Store.TreeListing
import Mathlib.Data.List.Dedup

/-!
# The rows of the project tree

What a request for directories returns: the rows of each directory are those below its
prefix, whatever else is requested with it, but for the directories that have children,
which are looked up below all prefixes.

## Main definitions

* `symbolsBelow` — the symbols of a type at the depth of the children of a prefix.
* `hasChildrenIn` — whether a directory has children, as the query says.
* `listing` — what a request shows of one prefix.

## Main results

* `shown_nodesAt` — **the nodes of a requested directory.**
* `listProjectTreeMulti_eq` — a request for directories is answered.
* `dirs_listing`, `files_listing` — what is listed, by components.
-/

namespace Askl

open Components

/-! ### Joins -/

/-- A left join with a table that has no repeated row keeps the rows. -/
theorem leftJoin_eq {names : List Text} (hnd : names.Nodup) (path : Text) :
    leftJoin names path = [decide (path ∈ names)] := by
  unfold leftJoin
  rw [List.filter_beq]
  by_cases hmem : path ∈ names
  · rw [List.count_eq_one_of_mem hnd hmem]
    simp [hmem]
  · rw [List.count_eq_zero.mpr hmem]
    simp [hmem]

section Rows

variable (s : Store) (projectId rootLayerId : ℤ)

/-- The symbols of a type at the depth of the children of a prefix, and below it. -/
def symbolsBelow (symbolType : ℤ) (p : Text) : List NewSymbol :=
  (treeSymbols s projectId rootLayerId symbolType).filter fun y =>
    y.symbolPath.length == slashCount p && p.isPrefixOf y.name

/-- Whether a directory has children, as the query says. -/
def hasChildrenIn (prefixes : List Text) (name : Text) : Bool :=
  decide (name ∈ dirsWithChildren s projectId rootLayerId prefixes directoryType) ||
    decide (name ∈ dirsWithChildren s projectId rootLayerId prefixes fileType)

/-- The row of a directory below a prefix. -/
def dirRow (prefixes : List Text) (p : Text) (d : NewSymbol) : BatchedDirRow :=
  ⟨d.name, p, hasChildrenIn s projectId rootLayerId prefixes d.name, none⟩

/-- The rows of the directories below one prefix. -/
def dirRowsOf (prefixes : List Text) (p : Text) : List BatchedDirRow :=
  ((symbolsBelow s projectId rootLayerId directoryType p).filter (·.name != p)).map
    (dirRow s projectId rootLayerId prefixes p)

/-- What a request shows of one prefix. -/
def listing (prefixes : List Text) (p : Text) : List (NodeType × Text × Bool) :=
  ((symbolsBelow s projectId rootLayerId directoryType p).filter (·.name != p)).map
      (fun d => (.dir, d.name, hasChildrenIn s projectId rootLayerId prefixes d.name)) ++
    (fileRowsOf s projectId rootLayerId p).dedup.map fun r => (.file, r.path, false)

/-- The rows of the directories, by prefix. -/
theorem dirRows_eq (prefixes : List Text) :
    dirRows s projectId rootLayerId prefixes =
      prefixes.flatMap (dirRowsOf s projectId rootLayerId prefixes) := by
  unfold dirRows directDirs
  rw [List.flatMap_assoc]
  refine List.flatMap_congr fun p _ => ?_
  rw [List.flatMap_map, dirRowsOf, symbolsBelow, List.filter_filter]
  have hrow : ∀ d : NewSymbol,
      ((leftJoin (dirsWithChildren s projectId rootLayerId prefixes directoryType) d.name).flatMap
        fun ddc => (leftJoin (dirsWithChildren s projectId rootLayerId prefixes fileType)
          d.name).map fun dfc => (⟨d.name, p, ddc || dfc, none⟩ : BatchedDirRow)) =
        [dirRow s projectId rootLayerId prefixes p d] := by
    intro d
    have hleft : ∀ symbolType,
        leftJoin (dirsWithChildren s projectId rootLayerId prefixes symbolType) d.name =
          [decide (d.name ∈ dirsWithChildren s projectId rootLayerId prefixes symbolType)] :=
      fun symbolType => leftJoin_eq (List.nodup_dedup _) d.name
    rw [hleft, hleft]
    rfl
  simp only [hrow]
  rw [← List.map_eq_flatMap]
  congr 1
  refine List.filter_congr fun d _ => ?_
  exact Bool.and_comm _ _

/-- The rows of the directories below a requested prefix are its own. -/
theorem filter_dirRows {prefixes : List Text} (hnd : prefixes.Nodup) {p : Text}
    (hp : p ∈ prefixes) :
    (dirRows s projectId rootLayerId prefixes).filter (·.parentPrefix == p) =
      dirRowsOf s projectId rootLayerId prefixes p := by
  rw [dirRows_eq]
  refine Keyed.filter_flatMap_key _ _ (fun k row hrow => ?_) hnd hp
  obtain ⟨d, -, rfl⟩ := List.mem_map.mp hrow
  rfl

theorem parentPrefix_of_mem_fileRowsOf {p : Text} {row : BatchedFileRow}
    (h : row ∈ fileRowsOf s projectId rootLayerId p) : row.parentPrefix = p := by
  obtain ⟨f, -, h⟩ := List.mem_flatMap.mp h
  obtain ⟨i, -, h⟩ := List.mem_flatMap.mp h
  obtain ⟨o, -, rfl⟩ := List.mem_map.mp h
  rfl

/-- The rows of the files below a requested prefix are its own. -/
theorem filter_fileRows {prefixes : List Text} {p : Text} (hp : p ∈ prefixes) :
    ((fileRows s projectId rootLayerId prefixes).filter (·.parentPrefix == p)).Perm
      (fileRowsOf s projectId rootLayerId p).dedup := by
  refine (List.perm_ext_iff_of_nodup ((List.nodup_dedup _).filter _) (List.nodup_dedup _)).mpr
    fun row => ?_
  rw [List.mem_filter, List.mem_dedup, List.mem_dedup, List.mem_flatMap, beq_iff_eq]
  constructor
  · rintro ⟨⟨q, -, hrow⟩, rfl⟩
    rwa [parentPrefix_of_mem_fileRowsOf s projectId rootLayerId hrow]
  · intro hrow
    exact ⟨⟨p, hp, hrow⟩, parentPrefix_of_mem_fileRowsOf s projectId rootLayerId hrow⟩

/-! ### Nodes -/

theorem prefixToPath_prefixOf {normalized : List Text}
    (hinj : ∀ q ∈ normalized, ∀ q' ∈ normalized, prefixOf q = prefixOf q' → q = q') {q : Text}
    (hq : q ∈ normalized) : prefixToPath normalized (prefixOf q) = some q := by
  unfold prefixToPath
  rw [← List.map_reverse]
  refine Keyed.lookup_map prefixOf (fun q => q) (List.mem_reverse.mpr hq) fun q' hq' heq => ?_
  exact hinj q' (List.mem_reverse.mp hq') q hq heq

/-- Rows of a requested prefix belong to the path it was made from. -/
theorem filter_prefixToPath {β : Type*} {normalized : List Text}
    (hinj : ∀ q ∈ normalized, ∀ q' ∈ normalized, prefixOf q = prefixOf q' → q = q') {q : Text}
    (hq : q ∈ normalized) {rows : List β} (parent : β → Text)
    (hparent : ∀ r ∈ rows, parent r ∈ normalized.map prefixOf) :
    (rows.filter fun r => prefixToPath normalized (parent r) == some q) =
      rows.filter fun r => parent r == prefixOf q := by
  refine List.filter_congr fun r hr => ?_
  obtain ⟨q', hq', hp⟩ := List.mem_map.mp (hparent r hr)
  rw [← hp, prefixToPath_prefixOf hinj hq', Bool.eq_iff_iff, beq_iff_eq, beq_iff_eq,
    Option.some.injEq]
  exact ⟨fun h => by rw [h], hinj q' hq' q hq⟩

/-- **The nodes of a requested directory** show its listing; compact paths are beside it. -/
theorem shown_nodesAt {normalized : List Text} (compact : Bool)
    (hinj : ∀ q ∈ normalized, ∀ q' ∈ normalized, prefixOf q = prefixOf q' → q = q') {q : Text}
    (hq : q ∈ normalized) :
    ((nodesAt normalized (loadTreeChildrenMulti s projectId rootLayerId normalized compact) q).map
      (·.shown)).Perm
        (listing s projectId rootLayerId (normalized.map prefixOf).dedup (prefixOf q)) := by
  set prefixes := (normalized.map prefixOf).dedup with hprefixes
  have hmem : ∀ p, p ∈ prefixes ↔ p ∈ normalized.map prefixOf := fun p => List.mem_dedup
  have hp : prefixOf q ∈ prefixes := (hmem _).mpr (List.mem_map_of_mem hq)
  -- the compact paths change neither what a row shows nor where it belongs
  obtain ⟨g, hg, hrows⟩ : ∃ g : BatchedDirRow → BatchedDirRow,
      (∀ r, (g r).parentPrefix = r.parentPrefix ∧ (g r).node.shown = r.node.shown) ∧
        (loadTreeChildrenMulti s projectId rootLayerId normalized compact).1 =
          (dirRows s projectId rootLayerId prefixes).map g := by
    cases compact with
    | false => exact ⟨id, fun r => ⟨rfl, rfl⟩, (List.map_id _).symm⟩
    | true =>
      let compactable := queryCompactableDirs s projectId rootLayerId
      exact ⟨fun d => { d with compactPath := compactPathOf compactable d.path },
        fun r => ⟨rfl, rfl⟩, rfl⟩
  have hfiles : (loadTreeChildrenMulti s projectId rootLayerId normalized compact).2 =
      fileRows s projectId rootLayerId prefixes := rfl
  have hdirParent : ∀ r ∈ (dirRows s projectId rootLayerId prefixes).map g,
      r.parentPrefix ∈ normalized.map prefixOf := by
    intro r hr
    obtain ⟨row, hrow, rfl⟩ := List.mem_map.mp hr
    rw [dirRows_eq] at hrow
    obtain ⟨p, hp, hrow⟩ := List.mem_flatMap.mp hrow
    obtain ⟨d, -, rfl⟩ := List.mem_map.mp hrow
    rw [(hg _).1]
    exact (hmem p).mp hp
  have hfileParent : ∀ r ∈ fileRows s projectId rootLayerId prefixes,
      r.parentPrefix ∈ normalized.map prefixOf := by
    intro r hr
    obtain ⟨p, hp, hr⟩ := List.mem_flatMap.mp (List.mem_dedup.mp hr)
    rw [parentPrefix_of_mem_fileRowsOf s projectId rootLayerId hr]
    exact (hmem p).mp hp
  refine ((List.perm_insertionSort _ _).map _).trans ?_
  rw [List.map_append, hrows, hfiles, filter_prefixToPath hinj hq BatchedDirRow.parentPrefix hdirParent,
    filter_prefixToPath hinj hq BatchedFileRow.parentPrefix hfileParent]
  refine List.Perm.append ?_ ?_
  · rw [List.filter_map, List.filter_congr (q := fun r => r.parentPrefix == prefixOf q)
      fun r _ => by rw [Function.comp_apply, (hg r).1],
      filter_dirRows s projectId rootLayerId (List.nodup_dedup _) hp, dirRowsOf]
    simp only [List.map_map]
    refine List.Perm.of_eq (List.map_congr_left fun d _ => ?_)
    exact (hg _).2
  · refine (((filter_fileRows s projectId rootLayerId hp).map _).map _).trans ?_
    rw [List.map_map]
    exact List.Perm.refl _

end Rows

/-! ### Children by components -/

section Children

variable {s : Store} {projectId rootLayerId : ℤ} {ds : List Text}

theorem isChild_dirPath {name : Text} (hds : Canonical ds) :
    IsChild (dirPath ds) name ↔ ∃ c, Canonical (ds ++ [c]) ∧ name = dirPath (ds ++ [c]) := by
  constructor
  · rintro ⟨cs, c, hc, hdir, rfl⟩
    obtain rfl := dirPath_injective hds (canonical_append.mp hc).1 hdir
    exact ⟨c, hc, rfl⟩
  · rintro ⟨c, hc, rfl⟩
    exact ⟨ds, c, hc, rfl, rfl⟩

/-- A path that is not the root has as many slashes as components. -/
theorem slashCount_dirPath {cs : List Text} (h : Canonical cs) (hne : cs ≠ []) :
    slashCount (dirPath cs) = cs.length := by
  rw [dirPath_of_ne_nil hne, slashCount_path h]

/-- What is below a prefix is longer by some components. -/
theorem below_prefixOf_iff {cs : List Text} (hcs : Canonical cs) (hds : Canonical ds)
    (hne : cs ≠ []) (k : ℕ) :
    (cs.length = ds.length + (k + 1) ∧ (prefixOf (dirPath ds)).isPrefixOf (dirPath cs) = true) ↔
      ∃ es, es.length = k + 1 ∧ cs = ds ++ es := by
  rw [isPrefixOf_dirPath hcs hds]
  constructor
  · rintro ⟨hlen, ⟨e, es, rfl⟩ | ⟨hnil, -⟩⟩
    · refine ⟨e :: es, ?_, rfl⟩
      rw [List.length_append] at hlen
      omega
    · exact absurd hnil hne
  · rintro ⟨es, hlen, rfl⟩
    obtain ⟨e, es, rfl⟩ := List.exists_cons_of_length_eq_add_one hlen
    exact ⟨by rw [List.length_append, hlen], Or.inl ⟨e, es, rfl⟩⟩

/-- A prefix is the name of the root only. -/
theorem dirPath_ne_prefixOf {cs : List Text} (hcs : Canonical cs) (hne : cs ≠ [])
    (hds : Canonical ds) : dirPath cs ≠ prefixOf (dirPath ds) := by
  intro heq
  have hcount := congrArg slashCount heq
  rw [slashCount_dirPath hcs hne, slashCount_prefixOf hds] at hcount
  have hpre : (prefixOf (dirPath ds)).isPrefixOf (dirPath cs) = true := by
    rw [heq]
    exact List.isPrefixOf_iff_prefix.mpr (List.prefix_refl _)
  obtain ⟨es, hlen, rfl⟩ := (below_prefixOf_iff hcs hds hne 0).mp ⟨hcount, hpre⟩
  obtain ⟨e, rfl⟩ := List.length_eq_one_iff.mp hlen
  rw [dirPath_concat, prefixOf_dirPath hds, path_concat, List.append_cancel_left_eq,
    List.cons.injEq] at heq
  exact ((canonical_append.mp hcs).2 e List.mem_cons_self).ne_nil heq.2

section Labels

variable {symbolType : ℤ}

/-- The symbols of a type have canonical names. -/
def CanonicalNames (s : Store) (projectId rootLayerId symbolType : ℤ) : Prop :=
  ∀ y ∈ treeSymbols s projectId rootLayerId symbolType, ∃ cs, Canonical cs ∧ y.name = dirPath cs

/-- The symbols of a type, but for the root, have as many labels as slashes. -/
def LabelsCount (s : Store) (projectId rootLayerId symbolType : ℤ) : Prop :=
  ∀ y ∈ treeSymbols s projectId rootLayerId symbolType, y.name ≠ ['/'] →
    y.symbolPath.length = slashCount y.name

variable (hnames : CanonicalNames s projectId rootLayerId symbolType)

/-- A child that is found below its directory has as many labels as slashes. -/
theorem labels_of_below (hds : Canonical ds) {y : NewSymbol}
    (hy : y ∈ symbolsBelow s projectId rootLayerId symbolType (prefixOf (dirPath ds)))
    (hchild : IsChild (dirPath ds) y.name) : y.symbolPath.length = slashCount y.name := by
  obtain ⟨cs, c, hcs, hdir, hname⟩ := hchild
  obtain rfl := dirPath_injective hds (canonical_append.mp hcs).1 hdir
  obtain ⟨-, hlen⟩ := List.mem_filter.mp hy
  rw [Bool.and_eq_true, beq_iff_eq, slashCount_prefixOf hds] at hlen
  rw [hlen.1, hname, slashCount_dirPath hcs (by simp), List.length_append]
  rfl

include hnames

/-- What is found below a directory is what is in it, when the labels count. -/
theorem mem_symbolsBelow_iff (hlabels : LabelsCount s projectId rootLayerId symbolType)
    (hds : Canonical ds) {y : NewSymbol} :
    y ∈ symbolsBelow s projectId rootLayerId symbolType (prefixOf (dirPath ds)) ∧
        y.name ≠ prefixOf (dirPath ds) ↔
      y ∈ treeSymbols s projectId rootLayerId symbolType ∧ IsChild (dirPath ds) y.name := by
  rw [symbolsBelow, List.mem_filter, Bool.and_eq_true, beq_iff_eq, slashCount_prefixOf hds]
  constructor
  · rintro ⟨⟨hy, hlen, hpre⟩, hne⟩
    obtain ⟨cs, hcs, hname⟩ := hnames y hy
    have hnil : cs ≠ [] := by
      rintro rfl
      rw [hname] at hpre hne
      rcases (isPrefixOf_dirPath hcs hds).mp hpre with ⟨e, es, h⟩ | ⟨-, rfl⟩
      · exact absurd h.symm (by simp)
      · exact hne rfl
    have hroot : y.name ≠ ['/'] := fun h => hnil ((dirPath_eq_root_iff hcs).mp (hname ▸ h))
    rw [hlabels y hy hroot, hname, slashCount_dirPath hcs hnil] at hlen
    rw [hname] at hpre
    obtain ⟨es, hes, rfl⟩ := (below_prefixOf_iff hcs hds hnil 0).mp ⟨hlen, hpre⟩
    obtain ⟨e, rfl⟩ := List.length_eq_one_iff.mp hes
    exact ⟨hy, ds, e, hcs, rfl, hname⟩
  · rintro ⟨hy, cs, c, hcs, hdir, hname⟩
    obtain rfl := dirPath_injective hds (canonical_append.mp hcs).1 hdir
    have hroot : y.name ≠ ['/'] := by
      rw [hname]
      exact (dirPath_eq_root_iff hcs).not.mpr (by simp)
    obtain ⟨hlen, hpre⟩ := (below_prefixOf_iff hcs hds (by simp) 0).mpr ⟨[c], rfl, rfl⟩
    refine ⟨⟨hy, ?_, hname ▸ hpre⟩, ?_⟩
    · rw [hlabels y hy hroot, hname, slashCount_dirPath hcs (by simp), hlen]
    · rw [hname]
      exact dirPath_ne_prefixOf hcs (by simp) hds

/-- The parents found below a directory are those of its grandchildren, when the labels
count. -/
theorem mem_dirsWithChildren_iff (hlabels : LabelsCount s projectId rootLayerId symbolType)
    {e : Text} (hds : Canonical (ds ++ [e])) {prefixes : List Text}
    (hp : prefixOf (dirPath ds) ∈ prefixes) :
    dirPath (ds ++ [e]) ∈ dirsWithChildren s projectId rootLayerId prefixes symbolType ↔
      ∃ y ∈ treeSymbols s projectId rootLayerId symbolType,
        IsChild (dirPath (ds ++ [e])) y.name := by
  unfold dirsWithChildren
  rw [List.mem_dedup, List.mem_flatMap]
  constructor
  · rintro ⟨p, -, hmem⟩
    obtain ⟨y, hy, hparent⟩ := List.mem_map.mp hmem
    obtain ⟨hy, -⟩ := List.mem_filter.mp hy
    obtain ⟨cs, hcs, hname⟩ := hnames y hy
    rw [hname] at hparent
    rcases List.eq_nil_or_concat cs with rfl | ⟨es, x, rfl⟩
    · rw [parentName_root, dirPath_concat, path_concat] at hparent
      exact absurd hparent.symm (by simp)
    · rw [List.concat_eq_append] at hcs hname hparent
      obtain rfl := (parentName_eq_iff hcs hds (by simp)).mp hparent
      exact ⟨y, hy, ds ++ [e], x, hcs, rfl, hname⟩
  · rintro ⟨y, hy, cs, x, hcs, hdir, hname⟩
    obtain rfl := dirPath_injective hds (canonical_append.mp hcs).1 hdir
    have hd := (canonical_append.mp hds).1
    have hroot : y.name ≠ ['/'] := by
      rw [hname]
      exact (dirPath_eq_root_iff hcs).not.mpr (by simp)
    obtain ⟨hlen, hpre⟩ := (below_prefixOf_iff hcs hd (by simp) 1).mpr
      ⟨[e, x], rfl, by simp⟩
    refine ⟨_, hp, List.mem_map.mpr ⟨y, List.mem_filter.mpr ⟨hy, ?_⟩, ?_⟩⟩
    · rw [Bool.and_eq_true, beq_iff_eq, hlabels y hy hroot, slashCount_prefixOf hd, hname,
        slashCount_dirPath hcs (by simp), hlen]
      exact ⟨rfl, hpre⟩
    · rw [hname]
      exact (parentName_eq_iff hcs hds (by simp)).mpr rfl

end Labels

/-! ### Listings -/

/-- The directories of a listing. -/
theorem dir_mem_listing {prefixes : List Text} {p name : Text} {b : Bool} :
    (.dir, name, b) ∈ listing s projectId rootLayerId prefixes p ↔
      (∃ d, (d ∈ symbolsBelow s projectId rootLayerId directoryType p ∧ d.name ≠ p) ∧
        d.name = name) ∧ b = hasChildrenIn s projectId rootLayerId prefixes name := by
  unfold listing
  rw [List.mem_append]
  constructor
  · rintro (hmem | hmem)
    · obtain ⟨d, hd, heq⟩ := List.mem_map.mp hmem
      obtain ⟨hd, hne⟩ := List.mem_filter.mp hd
      obtain ⟨rfl, rfl⟩ := Prod.mk.inj (Prod.mk.inj heq).2
      exact ⟨⟨d, ⟨hd, bne_iff_ne.mp hne⟩, rfl⟩, rfl⟩
    · obtain ⟨r, -, heq⟩ := List.mem_map.mp hmem
      exact absurd (Prod.mk.inj heq).1 (by simp)
  · rintro ⟨⟨d, ⟨hd, hne⟩, rfl⟩, rfl⟩
    exact Or.inl (List.mem_map.mpr ⟨d, List.mem_filter.mpr ⟨hd, bne_iff_ne.mpr hne⟩, rfl⟩)

/-- The files of a listing have a row. -/
theorem file_mem_listing {prefixes : List Text} {p name : Text} {b : Bool} :
    (.file, name, b) ∈ listing s projectId rootLayerId prefixes p ↔
      (∃ r ∈ fileRowsOf s projectId rootLayerId p, r.path = name) ∧ b = false := by
  unfold listing
  rw [List.mem_append]
  constructor
  · rintro (hmem | hmem)
    · obtain ⟨d, -, heq⟩ := List.mem_map.mp hmem
      exact absurd (Prod.mk.inj heq).1 (by simp)
    · obtain ⟨r, hr, heq⟩ := List.mem_map.mp hmem
      obtain ⟨rfl, rfl⟩ := Prod.mk.inj (Prod.mk.inj heq).2
      exact ⟨⟨r, List.mem_dedup.mp hr, rfl⟩, rfl⟩
  · rintro ⟨⟨r, hr, rfl⟩, rfl⟩
    exact Or.inr (List.mem_map.mpr ⟨r, List.mem_dedup.mpr hr, rfl⟩)

/-- A file has a row for each of its instances. -/
theorem mem_fileRowsOf (hs : s.Constrained) {p : Text} {f : NewSymbol}
    (hf : f ∈ symbolsBelow s projectId rootLayerId fileType p) {i : SymbolInstance}
    (hi : i ∈ s.symbolInstances) (hsymbol : i.symbol = f.id) (hlayer : i.layer = rootLayerId) :
    ∃ filetype, (⟨i.objectId, f.name, filetype, p⟩ : BatchedFileRow) ∈
      fileRowsOf s projectId rootLayerId p := by
  obtain ⟨o, ho, hid⟩ := hs.instanceObjects i hi
  refine ⟨o.row.filetype, List.mem_flatMap.mpr ⟨f, hf, List.mem_flatMap.mpr ⟨i, ?_, ?_⟩⟩⟩
  · exact List.mem_filter.mpr ⟨hi, by simp [hsymbol, hlayer]⟩
  · rw [← hid]
    exact List.mem_map.mpr ⟨o, List.mem_filter.mpr ⟨ho, by simp⟩, rfl⟩

/-- A row is made of a file, one of its instances and the object of this. -/
theorem exists_of_mem_fileRowsOf {p : Text} {r : BatchedFileRow}
    (hr : r ∈ fileRowsOf s projectId rootLayerId p) :
    ∃ f ∈ symbolsBelow s projectId rootLayerId fileType p, ∃ i ∈ s.symbolInstances,
      ∃ o ∈ s.objects, i.symbol = f.id ∧ i.layer = rootLayerId ∧ o.id = i.objectId ∧
        r = ⟨o.id, f.name, o.row.filetype, p⟩ := by
  obtain ⟨f, hf, hr⟩ := List.mem_flatMap.mp hr
  obtain ⟨i, hi, hr⟩ := List.mem_flatMap.mp hr
  obtain ⟨o, ho, rfl⟩ := List.mem_map.mp hr
  obtain ⟨hi, hkey⟩ := List.mem_filter.mp hi
  obtain ⟨ho, hid⟩ := List.mem_filter.mp ho
  rw [Bool.and_eq_true, beq_iff_eq, beq_iff_eq] at hkey
  exact ⟨f, hf, i, hi, o, ho, hkey.1, hkey.2, beq_iff_eq.mp hid, rfl⟩

/-! ### Requests -/

variable (h : TreeProject s projectId rootLayerId)

include h

theorem TreeProject.exists_canonical {name : Text}
    (hname : Requestable s projectId rootLayerId name) : ∃ cs, Canonical cs ∧ name = dirPath cs := by
  rcases hname with rfl | hname
  · exact ⟨[], List.forall_mem_nil _, rfl⟩
  · exact h.dirNames name hname

/-- **A request for directories is answered**, each with its listing. -/
theorem listProjectTreeMulti_eq {paths : List Text} (compact : Bool) (hne : paths ≠ [])
    (hpaths : ∀ q ∈ paths, Requestable s projectId rootLayerId (normalizeFullPath q)) :
    ∃ entries, listProjectTreeMulti s projectId paths compact = .nodes entries ∧
      ∀ q ∈ paths, ∃ nodes, entries.lookup (normalizeFullPath q) = some nodes ∧
        (nodes.map (·.shown)).Perm (listing s projectId rootLayerId
          ((paths.map normalizeFullPath).map prefixOf).dedup (prefixOf (normalizeFullPath q))) := by
  obtain ⟨p, hp, hcomplete, hroot⟩ := h.project
  set normalized := paths.map normalizeFullPath with hnormalized
  have hcanon : ∀ q ∈ normalized, ∃ cs, Canonical cs ∧ q = dirPath cs := by
    intro q hq
    obtain ⟨path, hpath, rfl⟩ := List.mem_map.mp hq
    exact h.exists_canonical (hpaths path hpath)
  have hinj : ∀ q ∈ normalized, ∀ q' ∈ normalized, prefixOf q = prefixOf q' → q = q' := by
    intro q hq q' hq' heq
    obtain ⟨cs, hcs, rfl⟩ := hcanon q hq
    obtain ⟨ds, hds, rfl⟩ := hcanon q' hq'
    rw [prefixOf_injective hcs hds heq]
  -- every path is the root or a directory, so that none is invalid
  have hvalid : ((normalized.filter (· != ['/'])).find? fun q =>
      !((treeSymbols s projectId rootLayerId directoryType).map (·.name)).contains q) = none := by
    refine List.find?_eq_none.mpr fun q hq => ?_
    obtain ⟨hq, hne⟩ := List.mem_filter.mp hq
    obtain ⟨path, hpath, rfl⟩ := List.mem_map.mp hq
    rcases hpaths path hpath with hslash | ⟨d, hd, hname⟩
    · exact absurd hslash (bne_iff_ne.mp hne)
    · simpa using ⟨d, hd, hname⟩
  refine ⟨normalized.dedup.map fun q => (q, nodesAt normalized
    (loadTreeChildrenMulti s projectId rootLayerId normalized compact) q), ?_, fun q hq => ?_⟩
  · rw [listProjectTreeMulti, if_neg (by simpa using hne), hp]
    simp only [hcomplete, ne_eq, not_true_eq_false, if_false, hroot, ← hnormalized, hvalid]
  · have hq' : normalizeFullPath q ∈ normalized := List.mem_map_of_mem hq
    refine ⟨_, Keyed.lookup_map (fun q => q) _ (List.mem_dedup.mpr hq') fun b _ hb => by rw [hb],
      ?_⟩
    exact shown_nodesAt s projectId rootLayerId compact hinj hq'

end Children

end Askl
