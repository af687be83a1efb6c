import Askl.Library.Components
import Askl.Library.Keyed
import Askl.Library.Utf8
import Askl.Store.Tables
import Askl.Store.UploadRows
import Mathlib.Data.List.Sort
import Mathlib.Data.List.Lex
import Mathlib.Data.Char

/-!
# The project tree

A project's directories and files are symbols whose names are paths.  The tree browser asks
for the children of some directories at a time: the rows below a directory are found by the
beginning of their names, and among these the children by the depth of their symbol paths.

SQL returns rows in no order that matters here: the nodes of a directory are sorted
afterwards.

## Main definitions

* `prefixOf`, `slashCount`, `parentName` — the text arithmetic of the queries.
* `walkCompactChain` — the directories that the browser skips.
* `loadTreeChildrenMulti` — the directories and files under some paths.
* `listProjectTreeMulti` — the nodes of each requested directory.
* `expandTree` — the files met by expanding directories one after the other.

## Main results

* `walkCompactChain_queryCompactableDirs` — a compact chain ends.
-/

namespace Askl

/-! ### Nodes -/

/-- `NodeType`. -/
inductive NodeType where
  | dir
  | file
  deriving DecidableEq, Repr

/-- `ProjectTreeNode`. -/
structure ProjectTreeNode where
  name : Text
  path : Text
  nodeType : NodeType
  hasChildren : Bool
  fileId : Option ℤ
  filetype : Option Text
  compactPath : Option Text
  deriving DecidableEq, Repr

/-- `MultiTreeResult`. -/
inductive MultiTreeResult where
  | projectNotFound
  | notReady
  | notDirectory (path : Text)
  | nodes (entries : List (Text × List ProjectTreeNode))
  deriving DecidableEq, Repr

/-- `BatchedDirRow`. -/
structure BatchedDirRow where
  path : Text
  parentPrefix : Text
  hasChildren : Bool
  compactPath : Option Text
  deriving DecidableEq, Repr

/-- `BatchedFileRow`. -/
structure BatchedFileRow where
  id : ℤ
  path : Text
  filetype : Text
  parentPrefix : Text
  deriving DecidableEq, Repr

/-! ### Text arithmetic -/

/-- The prefix of the names below a path. -/
def prefixOf (path : Text) : Text := if path = ['/'] then ['/'] else path ++ ['/']

/-- `length(t) - length(replace(t, '/', ''))`. -/
def slashCount (t : Text) : ℕ := t.length - (t.filter (· != '/')).length

/-- `position('/' IN t)`, counted from one. -/
def slashPosition (t : Text) : ℕ := if '/' ∈ t then t.idxOf '/' + 1 else 0

/-- `left(name, length(name) - position('/' IN reverse(name)))`. -/
def parentName (name : Text) : Text := name.take (name.length - slashPosition name.reverse)

/-- `path_basename`. -/
def pathBasename (path : Text) : Text :=
  let normalized := normalizeFullPath path
  if normalized = ['/'] then ['/']
  else ((normalized.reverse.dropWhile (· == '/')).takeWhile (· != '/')).reverse

/-! ### Queries -/

/-- The symbols of a type in a project and on its root layer. -/
def treeSymbols (s : Store) (projectId rootLayerId symbolType : ℤ) : List NewSymbol :=
  s.symbols.filter fun y => y.projectId == projectId && y.layer == rootLayerId &&
    y.symbolType == symbolType

/-- `SymbolType::File` and `SymbolType::Directory`. -/
def fileType : ℤ := 2
def directoryType : ℤ := 4

/-- The parent of a child, for the compact chains: what is directly below the root has no
slash after the leading ones. -/
def compactParent (name : Text) : Text :=
  if slashPosition (name.dropWhile (· == '/')) = 0 then ['/'] else parentName name

/-- `query_compactable_dirs`: the directories whose only child is a directory, with it. -/
def queryCompactableDirs (s : Store) (projectId rootLayerId : ℤ) : List (Text × Text) :=
  let dirs := (treeSymbols s projectId rootLayerId directoryType).filter (·.name != ['/'])
  let files := (treeSymbols s projectId rootLayerId fileType).filter (·.name != ['/'])
  (dirs.filter fun d =>
    (dirs ++ files).countP (fun c => compactParent c.name == compactParent d.name) == 1).map
      fun d => (compactParent d.name, d.name)

/-- The loop of `walk_compact_chain`, for some turns. -/
def walkCompactChain (map : List (Text × Text)) : ℕ → Text → Text
  | 0, current => current
  | k + 1, current =>
    if 4096 < (Utf8.utf8 current).length then current
    else match map.lookup current with
      | none => current
      | some next => walkCompactChain map k next

/-- A walk only gets longer once it has left the root, so that more turns than the bound
on the length change nothing. -/
theorem walkCompactChain_eq {map : List (Text × Text)} (hgrow : ∀ e ∈ map, e.2 ≠ ['/'] ∧
    (e.1 = ['/'] ∨ (Utf8.utf8 e.1).length < (Utf8.utf8 e.2).length)) {current : Text}
    (hne : current ≠ ['/']) {k k' : ℕ} (hk : 4097 ≤ k + (Utf8.utf8 current).length)
    (hk' : 4097 ≤ k' + (Utf8.utf8 current).length) :
    walkCompactChain map k current = walkCompactChain map k' current := by
  have hlong : ∀ j, 4096 < (Utf8.utf8 current).length → walkCompactChain map j current = current := by
    intro j hlen
    cases j with
    | zero => rfl
    | succ j => rw [walkCompactChain, if_pos hlen]
  induction k generalizing current k' with
  | zero => rw [hlong 0 (by omega), hlong k' (by omega)]
  | succ k ih =>
    by_cases hlen : 4096 < (Utf8.utf8 current).length
    · rw [hlong _ hlen, hlong _ hlen]
    obtain ⟨j, rfl⟩ : ∃ j, k' = j + 1 := ⟨k' - 1, by omega⟩
    rw [walkCompactChain, walkCompactChain, if_neg hlen, if_neg hlen]
    cases hlookup : map.lookup current with
    | none => rfl
    | some next =>
      have hentry := hgrow _ (Keyed.mem_of_lookup hlookup)
      dsimp only at hentry
      obtain ⟨hnext, hroot | hlt⟩ := hentry
      · exact absurd hroot hne
      · refine ih hnext (by omega) (by omega) fun i hi => ?_
        cases i with
        | zero => rfl
        | succ i => rw [walkCompactChain, if_pos hi]

/-- What is before the last slash of a name is shorter. -/
theorem utf8_parentName_lt {name : Text} (h : '/' ∈ name) :
    (Utf8.utf8 (parentName name)).length < (Utf8.utf8 name).length := by
  have hpos : 0 < slashPosition name.reverse := by
    rw [slashPosition, if_pos (List.mem_reverse.mpr h)]
    exact Nat.succ_pos _
  have hname : 0 < name.length := List.length_pos_of_mem h
  set n := name.length - slashPosition name.reverse with hn
  obtain ⟨c, rest, hdrop⟩ : ∃ c rest, name.drop n = c :: rest :=
    List.exists_cons_of_length_pos (by rw [List.length_drop]; omega)
  have hsplit : Utf8.utf8 name = Utf8.utf8 (parentName name) ++ Utf8.utf8 (name.drop n) := by
    rw [parentName, ← hn, Utf8.utf8_eq_flatMap, Utf8.utf8_eq_flatMap, Utf8.utf8_eq_flatMap,
      ← List.flatMap_append, List.take_append_drop]
  have hchar : 0 < (Utf8.utf8 (name.drop n)).length := by
    rw [hdrop, Utf8.utf8_eq_flatMap, List.flatMap_cons, List.length_append,
      String.length_utf8EncodeChar]
    have := Char.utf8Size_pos c
    omega
  rw [hsplit, List.length_append]
  omega

/-- A directory is not the root, and longer than the directory it is in unless that is the
root. -/
theorem queryCompactableDirs_grows {s : Store} {projectId rootLayerId : ℤ} {e : Text × Text}
    (he : e ∈ queryCompactableDirs s projectId rootLayerId) :
    e.2 ≠ ['/'] ∧ (e.1 = ['/'] ∨ (Utf8.utf8 e.1).length < (Utf8.utf8 e.2).length) := by
  obtain ⟨d, hd, rfl⟩ := List.mem_map.mp he
  obtain ⟨hd, -⟩ := List.mem_filter.mp hd
  refine ⟨bne_iff_ne.mp (List.mem_filter.mp hd).2, ?_⟩
  unfold compactParent
  split
  · exact Or.inl rfl
  · next hslash =>
    refine Or.inr (utf8_parentName_lt ?_)
    by_contra hnone
    refine hslash (if_neg fun hmem => hnone ?_)
    exact (List.dropWhile_sublist _).subset hmem

/-- A compact chain ends before its turns are up. -/
theorem walkCompactChain_queryCompactableDirs (s : Store) (projectId rootLayerId : ℤ)
    (start : Text) {k : ℕ} (hk : 4098 ≤ k) :
    walkCompactChain (queryCompactableDirs s projectId rootLayerId) k start =
      walkCompactChain (queryCompactableDirs s projectId rootLayerId) 4098 start := by
  set map := queryCompactableDirs s projectId rootLayerId with hmap
  have hgrow : ∀ e ∈ map, e.2 ≠ ['/'] ∧
      (e.1 = ['/'] ∨ (Utf8.utf8 e.1).length < (Utf8.utf8 e.2).length) :=
    fun e he => queryCompactableDirs_grows he
  by_cases hroot : start = ['/']
  · obtain ⟨j, rfl⟩ : ∃ j, k = j + 1 := ⟨k - 1, by omega⟩
    rw [walkCompactChain, walkCompactChain]
    split
    · rfl
    · cases hlookup : map.lookup start with
      | none => rfl
      | some next =>
        exact walkCompactChain_eq hgrow (hgrow _ (Keyed.mem_of_lookup hlookup)).1 (by omega) (by omega)
  · exact walkCompactChain_eq hgrow hroot (by omega) (by omega)

/-- `walk_compact_chain`.  A directory is shorter than what it contains, so that the walk
ends before the turns are up. -/
def compactPathOf (map : List (Text × Text)) (start : Text) : Option Text :=
  let current := walkCompactChain map 4098 start
  if current = start then none else some current

/-- `LEFT JOIN names ON parent_name = path`: one row for each name that matches, or one
without a match. -/
def leftJoin (names : List Text) (path : Text) : List Bool :=
  match names.filter (· == path) with
  | [] => [false]
  | matched => matched.map fun _ => true

section Load

variable (s : Store) (projectId rootLayerId : ℤ) (prefixes : List Text)

/-- `direct_dirs`: the directories at the depth of the children of a prefix. -/
def directDirs : List (Text × Text) :=
  prefixes.flatMap fun p =>
    ((treeSymbols s projectId rootLayerId directoryType).filter fun d =>
      d.symbolPath.length == slashCount p && p.isPrefixOf d.name && d.name != p).map
        fun d => (d.name, p)

/-- `dirs_with_dir_children` and `dirs_with_file_children`: the parents of the symbols of a
type at the depth below that. -/
def dirsWithChildren (symbolType : ℤ) : List Text :=
  (prefixes.flatMap fun p =>
    ((treeSymbols s projectId rootLayerId symbolType).filter fun c =>
      c.symbolPath.length == slashCount p + 1 && p.isPrefixOf c.name).map
        fun c => parentName c.name).dedup

/-- The rows of the directories. -/
def dirRows : List BatchedDirRow :=
  (directDirs s projectId rootLayerId prefixes).flatMap fun d =>
    (leftJoin (dirsWithChildren s projectId rootLayerId prefixes directoryType) d.1).flatMap
      fun ddc => (leftJoin (dirsWithChildren s projectId rootLayerId prefixes fileType) d.1).map
        fun dfc => ⟨d.1, d.2, ddc || dfc, none⟩

/-- The rows of the files below one prefix: file symbols joined with their instances and
these with their objects. -/
def fileRowsOf (p : Text) : List BatchedFileRow :=
  ((treeSymbols s projectId rootLayerId fileType).filter fun f =>
    f.symbolPath.length == slashCount p && p.isPrefixOf f.name).flatMap fun f =>
      (s.symbolInstances.filter fun i => i.symbol == f.id && i.layer == rootLayerId).flatMap
        fun i => (s.objects.filter (·.id == i.objectId)).map
          fun o => ⟨o.id, f.name, o.row.filetype, p⟩

/-- The rows of the files, without repetitions. -/
def fileRows : List BatchedFileRow :=
  (prefixes.flatMap (fileRowsOf s projectId rootLayerId)).dedup

end Load

/-- `load_tree_children_multi`: each prefix is looked up once. -/
def loadTreeChildrenMulti (s : Store) (projectId rootLayerId : ℤ) (paths : List Text)
    (compact : Bool) : List BatchedDirRow × List BatchedFileRow :=
  let prefixes := (paths.map prefixOf).dedup
  let dirs := dirRows s projectId rootLayerId prefixes
  let compactable := queryCompactableDirs s projectId rootLayerId
  (if compact then dirs.map fun d => { d with compactPath := compactPathOf compactable d.path }
    else dirs, fileRows s projectId rootLayerId prefixes)

/-! ### The listing -/

/-- The node of a directory row. -/
def BatchedDirRow.node (row : BatchedDirRow) : ProjectTreeNode where
  name := pathBasename row.path
  path := row.path
  nodeType := .dir
  hasChildren := row.hasChildren
  fileId := none
  filetype := none
  compactPath := row.compactPath

/-- The node of a file row. -/
def BatchedFileRow.node (row : BatchedFileRow) : ProjectTreeNode where
  name := pathBasename row.path
  path := row.path
  nodeType := .file
  hasChildren := false
  fileId := some row.id
  filetype := some row.filetype
  compactPath := none

/-- The order of the nodes of a directory: directories first, then by path. -/
def ProjectTreeNode.Before (a b : ProjectTreeNode) : Prop :=
  a.nodeType = .dir ∧ b.nodeType = .file ∨ a.nodeType = b.nodeType ∧ a.path ≤ b.path

instance : DecidableRel ProjectTreeNode.Before := fun _ _ =>
  inferInstanceAs (Decidable (_ ∨ _))

/-- `prefix_to_path`: the path a prefix was made from. -/
def prefixToPath (normalized : List Text) (p : Text) : Option Text :=
  (normalized.map fun q => (prefixOf q, q)).reverse.lookup p

/-- The nodes of one of the requested directories. -/
def nodesAt (normalized : List Text) (rows : List BatchedDirRow × List BatchedFileRow)
    (path : Text) : List ProjectTreeNode :=
  ((rows.1.filter fun r => prefixToPath normalized r.parentPrefix == some path).map (·.node) ++
    (rows.2.filter fun r => prefixToPath normalized r.parentPrefix == some path).map
      (·.node)).insertionSort ProjectTreeNode.Before

/-- `list_project_tree_multi`. -/
def listProjectTreeMulti (s : Store) (projectId : ℤ) (paths : List Text) (compact : Bool) :
    MultiTreeResult :=
  if paths.isEmpty then .nodes []
  else match s.findProject projectId with
    | none => .projectNotFound
    | some project =>
      if project.uploadStatus ≠ .complete then .notReady
      else
        let normalized := paths.map normalizeFullPath
        let found := (treeSymbols s projectId project.rootLayerId directoryType).map (·.name)
        match (normalized.filter (· != ['/'])).find? fun q => !found.contains q with
        | some invalid => .notDirectory invalid
        | none =>
          let rows := loadTreeChildrenMulti s projectId project.rootLayerId normalized compact
          .nodes (normalized.dedup.map fun q => (q, nodesAt normalized rows q))

/-- The files met by listing a directory, and then each of its directories that has
children, for some levels. -/
def expandTree (s : Store) (projectId : ℤ) (compact : Bool) : ℕ → Text → List Text
  | 0, _ => []
  | k + 1, dir => match listProjectTreeMulti s projectId [dir] compact with
    | .nodes entries => ((entries.lookup dir).getD []).flatMap fun n =>
      match n.nodeType with
      | .file => [n.path]
      | .dir => if n.hasChildren then expandTree s projectId compact k n.path else []
    | _ => []

end Askl
