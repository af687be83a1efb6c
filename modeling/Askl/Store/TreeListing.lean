import Askl.Store.ProjectTree
import Askl.Store.Replay
import Mathlib.Tactic.MkIffOfInductiveProp

/-!
# What the project tree shows

A directory's children are found by comparing the slashes of its prefix with the labels of
the symbol paths.  The labels are what is left of the components after normalisation: a
component can lose all its characters, or be split.  The tree is shown as it is exactly
when every name has as many labels as components.

## Main definitions

* `PathComponent`, `Canonical`, `dirPath` — normalised absolute paths, by components.
* `Store.PathsComputed` — the symbol paths were made from the names.
* `TreeProject` — a complete project whose directories and files are named by such paths.
* `ListsExactly`, `TreeListingExact` — each child once and nothing else.
* `TreeReadable` — the labels count the components.

## Main results

* `normalizeFullPath_dirPath` — canonical paths are normalised.
* `pathsComputed_of_run` — every store that requests lead to has such symbol paths.
-/

namespace Askl

open Components

/-! ### Canonical paths -/

/-- A component of a normalised path. -/
structure PathComponent (c : Text) : Prop where
  ne_nil : c ≠ []
  ne_dot : c ≠ ['.']
  ne_dotdot : c ≠ ['.', '.']
  slash : '/' ∉ c
  backslash : '\\' ∉ c

/-- The components of a normalised path. -/
def Canonical (cs : List Text) : Prop := ∀ c ∈ cs, PathComponent c

/-- The absolute path of some components. -/
def dirPath (cs : List Text) : Text := if cs = [] then ['/'] else path '/' cs

theorem Canonical.plain {cs : List Text} (h : Canonical cs) : Plain '/' cs :=
  fun c hc => (h c hc).slash

theorem canonical_append {cs ds : List Text} :
    Canonical (cs ++ ds) ↔ Canonical cs ∧ Canonical ds := List.forall_mem_append

theorem dirPath_of_ne_nil {cs : List Text} (h : cs ≠ []) : dirPath cs = path '/' cs := if_neg h

theorem dirPath_concat (cs : List Text) (c : Text) :
    dirPath (cs ++ [c]) = path '/' (cs ++ [c]) := dirPath_of_ne_nil (by simp)

/-- The root is the path of no components, and of none else. -/
theorem dirPath_eq_root_iff {cs : List Text} (h : Canonical cs) : dirPath cs = ['/'] ↔ cs = [] := by
  refine ⟨fun hroot => ?_, fun hnil => by rw [hnil]; rfl⟩
  cases cs with
  | nil => rfl
  | cons c cs =>
    rw [dirPath_of_ne_nil (List.cons_ne_nil _ _), path_cons, List.cons.injEq] at hroot
    exact absurd (List.append_eq_nil_iff.mp hroot.2).1 (h c List.mem_cons_self).ne_nil

theorem dirPath_injective {cs ds : List Text} (hcs : Canonical cs) (hds : Canonical ds)
    (h : dirPath cs = dirPath ds) : cs = ds := by
  by_cases hc : cs = []
  · subst hc
    exact ((dirPath_eq_root_iff hds).mp h.symm).symm
  · by_cases hd : ds = []
    · subst hd
      exact (dirPath_eq_root_iff hcs).mp h
    · rw [dirPath_of_ne_nil hc, dirPath_of_ne_nil hd] at h
      exact path_injective hcs.plain hds.plain h

/-- The stack takes the components of a canonical path as they are. -/
theorem foldl_pushComponent {cs : List Text} (h : Canonical cs) (stack : List Text) :
    cs.foldl pushComponent stack = stack ++ cs := by
  induction cs generalizing stack with
  | nil => simp
  | cons c cs ih =>
    have hc := h c List.mem_cons_self
    have hpush : pushComponent stack c = stack ++ [c] := by
      rw [pushComponent, if_neg (by simp [hc.ne_nil, hc.ne_dot]), if_neg hc.ne_dotdot]
    rw [List.foldl_cons, hpush, ih fun d hd => h d (List.mem_cons_of_mem c hd)]
    simp

/-- **Canonical paths are normalised.** -/
theorem normalizeFullPath_dirPath {cs : List Text} (h : Canonical cs) :
    normalizeFullPath (dirPath cs) = dirPath cs := by
  by_cases hnil : cs = []
  · subst hnil
    rfl
  rw [dirPath_of_ne_nil hnil]
  have hposix : normalizePosix (path '/' cs) = path '/' cs := by
    unfold normalizePosix
    rw [List.map_congr_left fun a ha => ?_, List.map_id]
    obtain ⟨c, hc, ha⟩ := List.mem_flatMap.mp ha
    rcases List.mem_cons.mp ha with rfl | ha
    · rfl
    · have hne : a ≠ '\\' := fun heq => (h c hc).backslash (heq ▸ ha)
      simp [hne]
  obtain ⟨c, cs, rfl⟩ := List.exists_cons_of_ne_nil hnil
  have hstack : ([] :: c :: cs : List Text).foldl pushComponent [] = c :: cs := by
    rw [List.foldl_cons]
    exact foldl_pushComponent h []
  have hinter : path '/' (c :: cs) = '/' :: ['/'].intercalate (c :: cs) := by
    have hsplit : ['/'].intercalate ((path '/' (c :: cs)).splitOn '/') = path '/' (c :: cs) :=
      List.intercalate_splitOn '/'
    rw [splitOn_path h.plain, List.intercalate_cons_cons] at hsplit
    simpa using hsplit.symm
  unfold normalizeFullPath
  simp only [hposix, splitOn_path h.plain, hstack]
  rw [← hinter]
  simp

/-! ### The arithmetic of the queries -/

theorem prefixOf_dirPath {cs : List Text} (h : Canonical cs) :
    prefixOf (dirPath cs) = path '/' cs ++ ['/'] := by
  unfold prefixOf
  by_cases hnil : cs = []
  · subst hnil
    rfl
  · rw [if_neg ((dirPath_eq_root_iff h).not.mpr hnil), dirPath_of_ne_nil hnil]

/-- Paths have prefixes of their own. -/
theorem prefixOf_injective {cs ds : List Text} (hcs : Canonical cs) (hds : Canonical ds)
    (h : prefixOf (dirPath cs) = prefixOf (dirPath ds)) : cs = ds := by
  rw [prefixOf_dirPath hcs, prefixOf_dirPath hds] at h
  exact path_injective hcs.plain hds.plain (List.append_cancel_right h)

theorem slashCount_eq_count (t : Text) : slashCount t = t.count '/' := by
  unfold slashCount
  induction t with
  | nil => rfl
  | cons a t ih =>
    have hle := List.length_filter_le (· != '/') t
    rw [List.count_cons, List.filter_cons]
    by_cases ha : a = '/'
    · subst ha
      simp only [bne_self_eq_false, Bool.false_eq_true, if_false, List.length_cons, beq_self_eq_true,
        if_true]
      omega
    · simp only [bne_iff_ne, ne_eq, ha, not_false_eq_true, if_true, List.length_cons, beq_iff_eq,
        if_false]
      omega

/-- A path has as many slashes as components. -/
theorem slashCount_path {cs : List Text} (h : Canonical cs) : slashCount (path '/' cs) = cs.length := by
  rw [slashCount_eq_count, count_path h.plain]

/-- The slashes of a prefix are those of the children of the path. -/
theorem slashCount_prefixOf {cs : List Text} (h : Canonical cs) :
    slashCount (prefixOf (dirPath cs)) = cs.length + 1 := by
  rw [prefixOf_dirPath h, slashCount_eq_count, List.count_append, count_path h.plain]
  rfl

/-- The names that begin with the prefix of a path are those below it; that of the root is
the root's own name. -/
theorem isPrefixOf_dirPath {cs ds : List Text} (hcs : Canonical cs) (hds : Canonical ds) :
    (prefixOf (dirPath ds)).isPrefixOf (dirPath cs) = true ↔
      (∃ e es, cs = ds ++ e :: es) ∨ cs = [] ∧ ds = [] := by
  rw [List.isPrefixOf_iff_prefix, prefixOf_dirPath hds]
  by_cases hnil : cs = []
  · subst hnil
    constructor
    · rintro ⟨t, ht⟩
      have hlen := congrArg List.length ht
      rw [List.append_assoc, List.length_append] at hlen
      simp only [List.singleton_append, List.length_cons, dirPath, if_true, List.length_nil] at hlen
      have hds' : path '/' ds = [] := List.eq_nil_of_length_eq_zero (by omega)
      exact Or.inr ⟨rfl, path_injective hds.plain (fun _ h => nomatch h) hds'⟩
    · rintro (⟨e, es, h⟩ | ⟨-, rfl⟩)
      · exact absurd h.symm (by simp)
      · exact List.prefix_refl _
  · rw [dirPath_of_ne_nil hnil, prefix_path_iff hcs.plain hds.plain]
    simp [hnil]

/-- What is before the last slash of a name is the path it is in. -/
theorem parentName_dirPath {cs : List Text} {c : Text} (h : Canonical (cs ++ [c])) :
    parentName (dirPath (cs ++ [c])) = path '/' cs := by
  have hc : '/' ∉ c := (canonical_append.mp h).2.plain c List.mem_cons_self
  have hmem : '/' ∈ (path '/' (cs ++ [c])).reverse := by
    rw [path_concat]
    simp
  rw [dirPath_concat, parentName, slashPosition, if_pos hmem]
  exact take_path_concat hc

theorem parentName_root : parentName (dirPath []) = [] := rfl

/-- A name's parent is a path that is not the root when it is the name of one of its
children. -/
theorem parentName_eq_iff {es ds : List Text} {x : Text} (hes : Canonical (es ++ [x]))
    (hds : Canonical ds) (hne : ds ≠ []) :
    parentName (dirPath (es ++ [x])) = dirPath ds ↔ es = ds := by
  rw [parentName_dirPath hes, dirPath_of_ne_nil hne]
  exact ⟨fun h => path_injective (canonical_append.mp hes).1.plain hds.plain h, fun h => by rw [h]⟩

/-! ### Symbol paths -/

namespace Store

/-- The symbol paths were made from the names. -/
def PathsComputed (s : Store) : Prop :=
  ∀ y ∈ s.symbols, y.symbolPath = (symbolPathAndLeaf y.name y.symbolType).1

theorem PathsComputed.mono {s s' : Store} (h : s.PathsComputed)
    (hsymbols : s'.symbols ⊆ s.symbols) : s'.PathsComputed :=
  fun y hy => h y (hsymbols hy)

theorem symbolPath_of_buildSymbol {projectId rootLayerId : ℤ} {symbol : UploadSymbol}
    {row : NewSymbol} (h : buildSymbol projectId rootLayerId symbol = .ok row) :
    row.symbolPath = (symbolPathAndLeaf row.name row.symbolType).1 := by
  obtain ⟨id, -, h⟩ := Fallible.bind_eq_ok.mp h
  obtain ⟨symbolType, -, h⟩ := Fallible.bind_eq_ok.mp h
  obtain rfl := Except.ok.inj h
  rfl

theorem symbolPath_of_buildSymbolsFrom {projectId rootLayerId : ℤ} {symbols : List UploadSymbol}
    {seen : List ℤ} {rows : List NewSymbol}
    (h : buildSymbolsFrom projectId rootLayerId seen symbols = .ok rows) :
    ∀ row ∈ rows, row.symbolPath = (symbolPathAndLeaf row.name row.symbolType).1 := by
  induction symbols generalizing seen rows with
  | nil =>
    obtain rfl := Except.ok.inj h
    exact List.forall_mem_nil _
  | cons symbol symbols ih =>
    unfold buildSymbolsFrom at h
    split at h
    · cases h
    · obtain ⟨row, hrow, h⟩ := Fallible.bind_eq_ok.mp h
      obtain ⟨rest, hrest, h⟩ := Fallible.bind_eq_ok.mp h
      obtain rfl := Except.ok.inj h
      exact List.forall_mem_cons.mpr ⟨symbolPath_of_buildSymbol hrow, ih hrest⟩

theorem PathsComputed.insertSymbols {s s' : Store} {projectId : ℤ} {symbols : List UploadSymbol}
    (h : s.PathsComputed) (hinsert : s.insertSymbols projectId symbols = .ok s') :
    s'.PathsComputed := by
  obtain ⟨root, -, hinsert⟩ := Fallible.bind_eq_ok.mp hinsert
  obtain ⟨rows, hrows, hinsert⟩ := Fallible.bind_eq_ok.mp hinsert
  have hbuilt := symbolPath_of_buildSymbolsFrom hrows
  refine Fallible.invariant_of_foldlM (I := PathsComputed) (fun row hrow s₁ s₂ hs₁ hs₂ => ?_)
    hinsert h
  unfold insertSymbol at hs₂
  split at hs₂
  · cases hs₂
  · obtain rfl := Except.ok.inj hs₂
    intro y hy
    rcases List.mem_append.mp hy with hy | hy
    · exact hs₁ y hy
    · obtain rfl := List.mem_singleton.mp hy
      exact hbuilt y hrow

/-- A request makes the symbol paths of the symbols it inserts. -/
theorem PathsComputed.handle {hashBytes : Bytes → Text} {s : Store} {req : Request}
    {c : Committed Response} (hs : s.Constrained) (h : s.PathsComputed)
    (hhandle : s.handle hashBytes req = .ok c) : c.store.PathsComputed := by
  cases handle_cases hhandle with
  | resumed | symbolChunkAgain | objectChunkAgain | notFinalized | notMarked => exact h
  | @created _ _ _ _ s' _ _ hcleared hcreated =>
    have hs' : s'.symbols ⊆ s.symbols := by
      rcases hcleared with ⟨rfl, -⟩ | ⟨z, -, -, -, rfl⟩
      · exact List.Subset.refl _
      · exact (List.filter_sublist.trans List.filter_sublist).subset
    obtain ⟨_, _, _, _, hframe⟩ := insertProject_frame hcreated
    rw [hframe]
    exact h.mono hs'
  | @symbolChunk projectId seq _ _ hnew hproject hinsert =>
    have hrecord : (s.recordSymbolChunk projectId seq).PathsComputed := h
    exact hrecord.insertSymbols hinsert
  | @objectChunk projectId seq _ _ hnew hproject hinsert =>
    obtain ⟨rows, hentered⟩ := (hs.recordObjectChunk projectId seq).exists_entered hinsert
    refine h.mono ?_
    rw [hentered.symbols]
    exact List.Subset.refl _
  | @contents _ rows =>
    obtain ⟨contentStore, heq⟩ := insertContents_eq s rows
    rw [heq]
    exact h
  | finalized => exact h
  | marked => exact h
  | @deleted projectId =>
    have hproject : ((s.deleteSymbolRange projectId).keepSymbols
        (·.projectId != projectId)).symbols.Sublist s.symbols := List.filter_sublist
    unfold deleteProject
    split
    · exact h.mono (List.filter_sublist.trans hproject).subset
    · exact h.mono (List.filter_sublist.trans (List.filter_sublist.trans hproject)).subset

end Store

/-- **In every run of requests the symbol paths are made from the names.** -/
theorem pathsComputed_of_run {hashBytes : Bytes → Text} {guard : UploadState → Request → Bool}
    {canaryRootHash : Bytes} {st : UploadState}
    (hrun : Relation.ReflTransGen (UploadStep hashBytes guard) (.initial canaryRootHash) st) :
    st.store.PathsComputed := by
  have hrunBoth : st.store.Constrained ∧ st.store.PathsComputed :=
    storeInvariant_of_run (I := fun s => s.Constrained ∧ s.PathsComputed)
      (fun h hhandle => ⟨h.1.handle hhandle, h.2.handle h.1 hhandle⟩)
      ⟨Store.constrained_initial canaryRootHash, List.forall_mem_nil _⟩ hrun
  exact hrunBoth.2

/-! ### The tree of a project -/

section Tree

variable (s : Store) (projectId rootLayerId : ℤ)

/-- A directory of the project. -/
def IsDirectory (name : Text) : Prop :=
  ∃ d ∈ treeSymbols s projectId rootLayerId directoryType, d.name = name

/-- A file of the project. -/
def IsFile (name : Text) : Prop :=
  ∃ f ∈ treeSymbols s projectId rootLayerId fileType, f.name = name

/-- A directory that can be requested: the root always can. -/
def Requestable (name : Text) : Prop := name = ['/'] ∨ IsDirectory s projectId rootLayerId name

/-- One path is directly in another. -/
def IsChild (dir name : Text) : Prop :=
  ∃ cs c, Canonical (cs ++ [c]) ∧ dir = dirPath cs ∧ name = dirPath (cs ++ [c])

/-- A complete project, in tables that meet their constraints and whose symbol paths were
made by the upload: its directories and files have absolute normalised names, a directory's
parent is one, and each file has an instance. -/
structure TreeProject : Prop where
  project : ∃ p, s.findProject projectId = some p ∧ p.uploadStatus = .complete ∧
    p.rootLayerId = rootLayerId
  constrained : s.Constrained
  symbolPaths : s.PathsComputed
  dirNames : ∀ name, IsDirectory s projectId rootLayerId name → ∃ cs, Canonical cs ∧ name = dirPath cs
  fileNames : ∀ name, IsFile s projectId rootLayerId name →
    ∃ cs c, Canonical (cs ++ [c]) ∧ name = dirPath (cs ++ [c])
  closed : ∀ dir name, IsDirectory s projectId rootLayerId name → IsChild dir name →
    Requestable s projectId rootLayerId dir
  instances : ∀ f ∈ treeSymbols s projectId rootLayerId fileType,
    ∃ i ∈ s.symbolInstances, i.symbol = f.id ∧ i.layer = rootLayerId

/-- What a listing shows of a node: whether it is a directory or a file, its path, and
whether it has children. -/
def ProjectTreeNode.shown (n : ProjectTreeNode) : NodeType × Text × Bool :=
  (n.nodeType, n.path, n.hasChildren)

/-- A listing of a directory shows its children once and nothing else, and says of the
directories among them which have children. -/
structure ListsExactly (dir : Text) (shown : List (NodeType × Text × Bool)) : Prop where
  once : (shown.map fun n => (n.1, n.2.1)).Nodup
  dirs : ∀ name, (∃ b, (.dir, name, b) ∈ shown) ↔
    IsDirectory s projectId rootLayerId name ∧ IsChild dir name
  files : ∀ name, (∃ b, (.file, name, b) ∈ shown) ↔
    IsFile s projectId rootLayerId name ∧ IsChild dir name
  hasChildren : ∀ name b, (.dir, name, b) ∈ shown → (b = true ↔ ∃ child,
    (IsDirectory s projectId rootLayerId child ∨ IsFile s projectId rootLayerId child) ∧
      IsChild name child)

/-- **The tree is shown as it is**: every request for directories is answered with exact
listings of them, and expanding from the root, for as many levels as there are, meets each
file once. -/
structure TreeListingExact : Prop where
  listing : ∀ paths compact, paths ≠ [] →
    (∀ q ∈ paths, Requestable s projectId rootLayerId (normalizeFullPath q)) →
    ∃ entries, listProjectTreeMulti s projectId paths compact = .nodes entries ∧
      ∀ q ∈ paths, ∃ nodes, entries.lookup (normalizeFullPath q) = some nodes ∧
        ListsExactly s projectId rootLayerId (normalizeFullPath q) (nodes.map (·.shown))
  expansion : ∀ compact, ∃ levels, ∀ k ≥ levels,
    (expandTree s projectId compact k ['/']).Nodup ∧
      ∀ name, name ∈ expandTree s projectId compact k ['/'] ↔ IsFile s projectId rootLayerId name

/-- The names are readable off the symbol paths: no two directories have one name, files of
one name are in one object, a file's directory is one, and a name has as many labels as
slashes. -/
@[mk_iff]
structure TreeReadable : Prop where
  dirsDistinct : (((treeSymbols s projectId rootLayerId directoryType).filter
    (·.name != ['/'])).map (·.name)).Nodup
  oneObject : ∀ f ∈ treeSymbols s projectId rootLayerId fileType,
    ∀ f' ∈ treeSymbols s projectId rootLayerId fileType, f.name = f'.name →
    ∀ i ∈ s.symbolInstances, ∀ i' ∈ s.symbolInstances, i.symbol = f.id → i.layer = rootLayerId →
      i'.symbol = f'.id → i'.layer = rootLayerId → i.objectId = i'.objectId
  filesPlaced : ∀ f ∈ treeSymbols s projectId rootLayerId fileType,
    parentName f.name = [] ∨ IsDirectory s projectId rootLayerId (parentName f.name)
  dirLabels : ∀ d ∈ treeSymbols s projectId rootLayerId directoryType, d.name ≠ ['/'] →
    d.symbolPath.length = slashCount d.name
  fileLabels : ∀ f ∈ treeSymbols s projectId rootLayerId fileType,
    f.symbolPath.length = slashCount f.name

end Tree

instance (s : Store) (projectId rootLayerId : ℤ) (name : Text) :
    Decidable (IsDirectory s projectId rootLayerId name) :=
  inferInstanceAs (Decidable (∃ d ∈ treeSymbols s projectId rootLayerId directoryType, d.name = name))

instance (s : Store) (projectId rootLayerId : ℤ) :
    Decidable (TreeReadable s projectId rootLayerId) :=
  decidable_of_iff' _ (treeReadable_iff s projectId rootLayerId)

end Askl
