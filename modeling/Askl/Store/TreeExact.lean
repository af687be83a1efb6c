import Askl.Store.TreeRows
import Mathlib.Algebra.Order.BigOperators.Group.List
import Mathlib.Algebra.Order.Ring.Nat

/-!
# When the project tree is exact

A listing is exact as soon as the labels of the names count their slashes, a name has one
directory or one object, and the files are in directories.  Expanding from the root then
meets each file once, since what is below different children differs.  Conversely the
labels of a name depend on the name alone, so that a name that is listed has the right
number of them.

## Main results

* `listsExactly_listing` — readable trees have exact listings.
* `nodup_expandTree`, `mem_expandTree` — what exact listings expand to.
* `treeListingExact_iff` — **when the tree is shown as it is.**
-/

namespace Askl

open Components

section Exact

variable {s : Store} {projectId rootLayerId : ℤ}

/-! ### Listings -/

/-- What a listing shows does not depend on its order. -/
theorem ListsExactly.perm {dir : Text} {l l' : List (NodeType × Text × Bool)}
    (h : ListsExactly s projectId rootLayerId dir l) (hperm : l'.Perm l) :
    ListsExactly s projectId rootLayerId dir l' where
  once := (hperm.map _).nodup_iff.mpr h.once
  dirs name := by
    rw [← h.dirs name]
    exact exists_congr fun b => hperm.mem_iff
  files name := by
    rw [← h.files name]
    exact exists_congr fun b => hperm.mem_iff
  hasChildren name b hmem := h.hasChildren name b (hperm.mem_iff.mp hmem)

/-- What is below a prefix is not the root. -/
theorem ne_root_of_below {ds : List Text} (hds : Canonical ds) {d : NewSymbol}
    (hd : d ∈ symbolsBelow s projectId rootLayerId directoryType (prefixOf (dirPath ds)))
    (hne : d.name ≠ prefixOf (dirPath ds)) : d.name ≠ ['/'] := by
  intro hroot
  obtain ⟨-, hpre⟩ := List.mem_filter.mp hd
  rw [Bool.and_eq_true, hroot] at hpre
  rcases (isPrefixOf_dirPath (List.forall_mem_nil _) hds).mp hpre.2 with ⟨e, es, heq⟩ | ⟨-, rfl⟩
  · exact absurd heq.symm (by simp)
  · exact hne hroot

/-- Listed directories have names of their own, when directories have. -/
theorem nodup_dirs {ds : List Text} (hds : Canonical ds)
    (hdistinct : (((treeSymbols s projectId rootLayerId directoryType).filter
      (·.name != ['/'])).map (·.name)).Nodup) :
    (((symbolsBelow s projectId rootLayerId directoryType (prefixOf (dirPath ds))).filter
      (·.name != prefixOf (dirPath ds))).map (·.name)).Nodup := by
  rw [List.Nodup, List.pairwise_map, List.pairwise_filter] at hdistinct ⊢
  refine (hdistinct.filter _).imp_of_mem fun {d d'} hd hd' hne hnp hnp' => hne ?_ ?_
  · exact bne_iff_ne.mpr (ne_root_of_below hds hd (bne_iff_ne.mp hnp))
  · exact bne_iff_ne.mpr (ne_root_of_below hds hd' (bne_iff_ne.mp hnp'))

namespace TreeProject

variable (h : TreeProject s projectId rootLayerId)

include h

theorem canonicalNames_dir : CanonicalNames s projectId rootLayerId directoryType :=
  fun d hd => h.dirNames d.name ⟨d, hd, rfl⟩

theorem canonicalNames_file : CanonicalNames s projectId rootLayerId fileType := by
  intro f hf
  obtain ⟨cs, c, hc, hname⟩ := h.fileNames f.name ⟨f, hf, rfl⟩
  exact ⟨cs ++ [c], hc, hname⟩

/-- Listed files have names of their own, when those of one name are in one object. -/
theorem nodup_files (hr : TreeReadable s projectId rootLayerId) (p : Text) :
    ((fileRowsOf s projectId rootLayerId p).dedup.map (·.path)).Nodup := by
  refine List.Nodup.map_on (fun r hr₁ r' hr₂ hpath => ?_) (List.nodup_dedup _)
  obtain ⟨f, hf, i, hi, o, ho, hif, hil, hoi, rfl⟩ :=
    exists_of_mem_fileRowsOf (List.mem_dedup.mp hr₁)
  obtain ⟨f', hf', i', hi', o', ho', hif', hil', hoi', rfl⟩ :=
    exists_of_mem_fileRowsOf (List.mem_dedup.mp hr₂)
  have hobject := hr.oneObject f (List.mem_filter.mp hf).1 f' (List.mem_filter.mp hf').1 hpath
    i hi i' hi' hif hil hif' hil'
  obtain rfl := h.constrained.eq_of_id ho ho' (by rw [hoi, hoi', hobject])
  rw [BatchedFileRow.mk.injEq]
  exact ⟨rfl, hpath, rfl, rfl⟩

/-- **Readable trees have exact listings.** -/
theorem listsExactly_listing (hr : TreeReadable s projectId rootLayerId) {ds : List Text}
    (hds : Canonical ds) {prefixes : List Text} (hp : prefixOf (dirPath ds) ∈ prefixes) :
    ListsExactly s projectId rootLayerId (dirPath ds)
      (listing s projectId rootLayerId prefixes (prefixOf (dirPath ds))) := by
  have hdirLabels : LabelsCount s projectId rootLayerId directoryType := hr.dirLabels
  have hfileLabels : LabelsCount s projectId rootLayerId fileType := fun f hf _ =>
    hr.fileLabels f hf
  have hdirs : ∀ name, (∃ b, (.dir, name, b) ∈ listing s projectId rootLayerId prefixes
      (prefixOf (dirPath ds))) ↔
        IsDirectory s projectId rootLayerId name ∧ IsChild (dirPath ds) name := by
    intro name
    simp only [dir_mem_listing, exists_and_left, exists_eq, and_true,
      mem_symbolsBelow_iff h.canonicalNames_dir hdirLabels hds]
    constructor
    · rintro ⟨d, ⟨hd, hchild⟩, rfl⟩
      exact ⟨⟨d, hd, rfl⟩, hchild⟩
    · rintro ⟨⟨d, hd, rfl⟩, hchild⟩
      exact ⟨d, ⟨hd, hchild⟩, rfl⟩
  refine ⟨?_, hdirs, fun name => ?_, fun name b hmem => ?_⟩
  · unfold listing
    rw [List.map_append, List.map_map, List.map_map, List.nodup_append]
    refine ⟨?_, ?_, ?_⟩
    · refine List.Nodup.of_map Prod.snd ?_
      rw [List.map_map]
      exact nodup_dirs hds hr.dirsDistinct
    · refine List.Nodup.of_map Prod.snd ?_
      rw [List.map_map]
      exact h.nodup_files hr _
    · intro a ha b hb hab
      obtain ⟨d, -, rfl⟩ := List.mem_map.mp ha
      obtain ⟨r, -, rfl⟩ := List.mem_map.mp hb
      exact absurd (Prod.mk.inj hab).1 (by simp)
  · simp only [file_mem_listing, exists_and_left, exists_eq, and_true]
    constructor
    · rintro ⟨r, hrow, rfl⟩
      obtain ⟨f, hf, -, -, -, -, -, -, -, rfl⟩ := exists_of_mem_fileRowsOf hrow
      have hf' := (List.mem_filter.mp hf).1
      have hne : f.name ≠ prefixOf (dirPath ds) := by
        obtain ⟨cs, c, hc, hname⟩ := h.fileNames f.name ⟨f, hf', rfl⟩
        rw [hname]
        exact dirPath_ne_prefixOf hc (by simp) hds
      exact ⟨⟨f, hf', rfl⟩,
        ((mem_symbolsBelow_iff h.canonicalNames_file hfileLabels hds).mp ⟨hf, hne⟩).2⟩
    · rintro ⟨⟨f, hf, rfl⟩, hchild⟩
      obtain ⟨i, hi, hsymbol, hlayer⟩ := h.instances f hf
      have hbelow :=
        (mem_symbolsBelow_iff h.canonicalNames_file hfileLabels hds).mpr ⟨hf, hchild⟩
      obtain ⟨filetype, hrow⟩ := mem_fileRowsOf h.constrained hbelow.1 hi hsymbol hlayer
      exact ⟨_, hrow, rfl⟩
  · obtain ⟨-, hchild⟩ := (hdirs name).mp ⟨b, hmem⟩
    obtain ⟨e, he, rfl⟩ := (isChild_dirPath hds).mp hchild
    rw [(dir_mem_listing.mp hmem).2, hasChildrenIn, Bool.or_eq_true, decide_eq_true_iff,
      decide_eq_true_iff, mem_dirsWithChildren_iff h.canonicalNames_dir hdirLabels he hp,
      mem_dirsWithChildren_iff h.canonicalNames_file hfileLabels he hp]
    constructor
    · rintro (⟨y, hy, hc⟩ | ⟨y, hy, hc⟩)
      · exact ⟨y.name, Or.inl ⟨y, hy, rfl⟩, hc⟩
      · exact ⟨y.name, Or.inr ⟨y, hy, rfl⟩, hc⟩
    · rintro ⟨child, ⟨y, hy, rfl⟩ | ⟨y, hy, rfl⟩, hc⟩
      · exact Or.inl ⟨y, hy, hc⟩
      · exact Or.inr ⟨y, hy, hc⟩

end TreeProject

/-! ### Expansions -/

/-- Every requestable directory is listed by itself. -/
def ListsEach (s : Store) (projectId rootLayerId : ℤ) (compact : Bool) : Prop :=
  ∀ ds, Canonical ds → Requestable s projectId rootLayerId (dirPath ds) →
    ∃ entries nodes, listProjectTreeMulti s projectId [dirPath ds] compact = .nodes entries ∧
      entries.lookup (dirPath ds) = some nodes ∧
        ListsExactly s projectId rootLayerId (dirPath ds) (nodes.map (·.shown))

/-- What expanding a shown node meets. -/
def expandShown (s : Store) (projectId : ℤ) (compact : Bool) (k : ℕ)
    (n : NodeType × Text × Bool) : List Text :=
  match n.1 with
  | .file => [n.2.1]
  | .dir => if n.2.2 then expandTree s projectId compact k n.2.1 else []

variable {compact : Bool}

/-- A directory is expanded by expanding what it shows. -/
theorem expandTree_succ (hlist : ListsEach s projectId rootLayerId compact) {ds : List Text}
    (hds : Canonical ds) (hreq : Requestable s projectId rootLayerId (dirPath ds)) :
    ∃ shown, ListsExactly s projectId rootLayerId (dirPath ds) shown ∧
      ∀ k, expandTree s projectId compact (k + 1) (dirPath ds) =
        shown.flatMap (expandShown s projectId compact k) := by
  obtain ⟨entries, nodes, heq, hlookup, hexact⟩ := hlist ds hds hreq
  refine ⟨nodes.map (·.shown), hexact, fun k => ?_⟩
  rw [expandTree, heq, List.flatMap_map]
  simp only [hlookup, Option.getD_some]
  exact List.flatMap_congr fun n _ => rfl

/-- What contains a requestable directory is one. -/
theorem TreeProject.requestable_of_append (h : TreeProject s projectId rootLayerId)
    {ds es : List Text} (hc : Canonical (ds ++ es))
    (hreq : Requestable s projectId rootLayerId (dirPath (ds ++ es))) :
    Requestable s projectId rootLayerId (dirPath ds) := by
  induction es using List.reverseRecOn with
  | nil => rwa [List.append_nil] at hreq
  | append_singleton es x ih =>
    rw [← List.append_assoc] at hc hreq
    refine ih (canonical_append.mp hc).1 ?_
    rcases hreq with hroot | hdir
    · exact absurd ((dirPath_eq_root_iff hc).mp hroot) (by simp)
    · exact h.closed _ _ hdir ⟨ds ++ es, x, hc, rfl, rfl⟩

/-- A requestable path that is not the root is a directory. -/
theorem isDirectory_of_requestable {cs : List Text} (hc : Canonical cs) (hne : cs ≠ [])
    (hreq : Requestable s projectId rootLayerId (dirPath cs)) :
    IsDirectory s projectId rootLayerId (dirPath cs) :=
  hreq.resolve_left ((dirPath_eq_root_iff hc).not.mpr hne)

/-- An expansion meets files of the directories below. -/
theorem file_of_mem_expandTree (hlist : ListsEach s projectId rootLayerId compact) {name : Text}
    {k : ℕ} {ds : List Text} (hds : Canonical ds)
    (hreq : Requestable s projectId rootLayerId (dirPath ds))
    (hmem : name ∈ expandTree s projectId compact k (dirPath ds)) :
    IsFile s projectId rootLayerId name ∧ ∃ es c, Canonical (ds ++ es ++ [c]) ∧
      Requestable s projectId rootLayerId (dirPath (ds ++ es)) ∧
        name = dirPath (ds ++ es ++ [c]) := by
  induction k generalizing ds with
  | zero => cases hmem
  | succ k ih =>
    obtain ⟨shown, hexact, hexpand⟩ := expandTree_succ hlist hds hreq
    rw [hexpand] at hmem
    obtain ⟨⟨t, path, b⟩, hshown, hin⟩ := List.mem_flatMap.mp hmem
    cases t with
    | file =>
      obtain rfl := List.mem_singleton.mp hin
      obtain ⟨hfile, hchild⟩ := (hexact.files name).mp ⟨b, hshown⟩
      obtain ⟨c, hc, hname⟩ := (isChild_dirPath hds).mp hchild
      exact ⟨hfile, [], c, by rwa [List.append_nil], by rwa [List.append_nil],
        by rwa [List.append_nil]⟩
    | dir =>
      cases b with
      | false => cases hin
      | true =>
        obtain ⟨hdir, hchild⟩ := (hexact.dirs path).mp ⟨true, hshown⟩
        obtain ⟨e, he, rfl⟩ := (isChild_dirPath hds).mp hchild
        obtain ⟨hfile, es, c, hc, hreq', hname⟩ := ih he (Or.inr hdir) hin
        rw [List.append_assoc ds] at hc hreq' hname
        exact ⟨hfile, e :: es, c, hc, hreq', hname⟩

/-- An expansion meets the files of the directories below that it gets to. -/
theorem TreeProject.mem_expandTree (h : TreeProject s projectId rootLayerId)
    (hlist : ListsEach s projectId rootLayerId compact) {k : ℕ}
    {ds es : List Text} {c : Text} (hc : Canonical (ds ++ es ++ [c])) (hk : es.length < k)
    (hplaced : Requestable s projectId rootLayerId (dirPath (ds ++ es)))
    (hfile : IsFile s projectId rootLayerId (dirPath (ds ++ es ++ [c]))) :
    dirPath (ds ++ es ++ [c]) ∈ expandTree s projectId compact k (dirPath ds) := by
  induction es generalizing ds k with
  | nil =>
    rw [List.append_nil] at hc hplaced hfile ⊢
    obtain ⟨k, rfl⟩ := Nat.exists_eq_add_of_lt hk
    obtain ⟨shown, hexact, hexpand⟩ := expandTree_succ hlist (canonical_append.mp hc).1 hplaced
    obtain ⟨b, hshown⟩ := (hexact.files _).mpr ⟨hfile, ds, c, hc, rfl, rfl⟩
    rw [hexpand]
    exact List.mem_flatMap.mpr ⟨_, hshown, List.mem_singleton_self _⟩
  | cons e es ih =>
    obtain ⟨k, rfl⟩ : ∃ k', k = k' + 1 := ⟨k - 1, by simp at hk; omega⟩
    have hsplit : ds ++ e :: es = ds ++ [e] ++ es := by simp
    rw [hsplit] at hc hplaced hfile ⊢
    have hce := (canonical_append.mp hc).1
    have hde := (canonical_append.mp hce).1
    have hreq := h.requestable_of_append hce hplaced
    have hdir := isDirectory_of_requestable hde (by simp) hreq
    obtain ⟨shown, hexact, hexpand⟩ := expandTree_succ hlist (canonical_append.mp hde).1
      (h.requestable_of_append hde hreq)
    obtain ⟨b, hshown⟩ := (hexact.dirs _).mpr ⟨hdir, ds, e, hde, rfl, rfl⟩
    -- the directory has a child: the next one on the way, or the file
    have hb : b = true := by
      refine (hexact.hasChildren _ b hshown).mpr ?_
      cases es with
      | nil =>
        rw [List.append_nil] at hc hfile
        exact ⟨_, Or.inr hfile, ds ++ [e], c, hc, rfl, rfl⟩
      | cons x es =>
        have hsplit' : ds ++ [e] ++ x :: es = ds ++ [e] ++ [x] ++ es := by simp
        rw [hsplit'] at hce hplaced
        have hdx := (canonical_append.mp hce).1
        exact ⟨_, Or.inl (isDirectory_of_requestable hdx (by simp)
          (h.requestable_of_append hce hplaced)), ds ++ [e], x, hdx, rfl, rfl⟩
    subst hb
    rw [hexpand]
    refine List.mem_flatMap.mpr ⟨_, hshown, ?_⟩
    exact ih hc (by simp at hk; omega) hplaced hfile

/-- An expansion repeats no file: what is below different children differs. -/
theorem nodup_expandTree (hlist : ListsEach s projectId rootLayerId compact) {k : ℕ}
    {ds : List Text} (hds : Canonical ds)
    (hreq : Requestable s projectId rootLayerId (dirPath ds)) :
    (expandTree s projectId compact k (dirPath ds)).Nodup := by
  induction k generalizing ds with
  | zero => exact List.nodup_nil
  | succ k ih =>
    obtain ⟨shown, hexact, hexpand⟩ := expandTree_succ hlist hds hreq
    -- a node is a child, and what it expands to is the child itself or below it
    have hbelow : ∀ n ∈ shown, ∀ name ∈ expandShown s projectId compact k n,
        ∃ c es, Canonical (ds ++ c :: es) ∧ n.2.1 = dirPath (ds ++ [c]) ∧
          name = dirPath (ds ++ c :: es) ∧ (n.1 = .file ↔ es = []) := by
      rintro ⟨t, path, b⟩ hshown name hin
      cases t with
      | file =>
        obtain rfl := List.mem_singleton.mp hin
        obtain ⟨-, hchild⟩ := (hexact.files name).mp ⟨b, hshown⟩
        obtain ⟨c, hc, hname⟩ := (isChild_dirPath hds).mp hchild
        exact ⟨c, [], hc, hname, hname, by simp⟩
      | dir =>
        cases b with
        | false => cases hin
        | true =>
          obtain ⟨hdir, hchild⟩ := (hexact.dirs path).mp ⟨true, hshown⟩
          obtain ⟨e, he, rfl⟩ := (isChild_dirPath hds).mp hchild
          obtain ⟨-, es, c, hc, -, rfl⟩ := file_of_mem_expandTree hlist he (Or.inr hdir) hin
          refine ⟨e, es ++ [c], ?_, rfl, ?_, by simp⟩
          · simpa using hc
          · simp
    rw [hexpand, List.nodup_flatMap]
    refine ⟨?_, ?_⟩
    · rintro ⟨t, path, b⟩ hshown
      cases t with
      | file => exact List.nodup_singleton _
      | dir =>
        cases b with
        | false => exact List.nodup_nil
        | true =>
          obtain ⟨hdir, hchild⟩ := (hexact.dirs path).mp ⟨true, hshown⟩
          obtain ⟨e, he, rfl⟩ := (isChild_dirPath hds).mp hchild
          exact ih he (Or.inr hdir)
    · refine (List.pairwise_map.mp hexact.once).imp_of_mem fun {n n'} hn hn' hne => ?_
      intro name hname hname'
      obtain ⟨c, es, hc, hpath, heq, hfile⟩ := hbelow n hn name hname
      obtain ⟨c', es', hc', hpath', heq', hfile'⟩ := hbelow n' hn' name hname'
      have hsame := List.append_cancel_left (dirPath_injective hc hc' (heq.symm.trans heq'))
      obtain ⟨rfl, rfl⟩ := List.cons.inj hsame
      refine hne (Prod.ext ?_ (hpath.trans hpath'.symm))
      have hiff := hfile.trans hfile'.symm
      cases h₁ : n.1 <;> cases h₂ : n'.1 <;> simp_all

/-! ### When the tree is exact -/

/-- Directories are listed by themselves when all requests are answered. -/
theorem listsEach_of_listing {compact : Bool} (hlisting : ∀ paths, paths ≠ [] →
    (∀ q ∈ paths, Requestable s projectId rootLayerId (normalizeFullPath q)) →
    ∃ entries, listProjectTreeMulti s projectId paths compact = .nodes entries ∧
      ∀ q ∈ paths, ∃ nodes, entries.lookup (normalizeFullPath q) = some nodes ∧
        ListsExactly s projectId rootLayerId (normalizeFullPath q) (nodes.map (·.shown))) :
    ListsEach s projectId rootLayerId compact := by
  intro ds hds hreq
  have hnorm := normalizeFullPath_dirPath hds
  obtain ⟨entries, heq, hnodes⟩ := hlisting [dirPath ds] (List.cons_ne_nil _ _) (by
    intro q hq
    rw [List.mem_singleton.mp hq, hnorm]
    exact hreq)
  obtain ⟨nodes, hlookup, hexact⟩ := hnodes (dirPath ds) List.mem_cons_self
  rw [hnorm] at hlookup hexact
  exact ⟨entries, nodes, heq, hlookup, hexact⟩

/-- A file is placed when its directory can be requested. -/
theorem placed_iff {cs : List Text} {c : Text} (hc : Canonical (cs ++ [c])) :
    (parentName (dirPath (cs ++ [c])) = [] ∨
        IsDirectory s projectId rootLayerId (parentName (dirPath (cs ++ [c])))) ↔
      Requestable s projectId rootLayerId (dirPath cs) := by
  rw [parentName_dirPath hc]
  by_cases hnil : cs = []
  · subst hnil
    exact iff_of_true (Or.inl rfl) (Or.inl rfl)
  · have hcs := (canonical_append.mp hc).1
    have hpath : path '/' cs ≠ [] := fun heq =>
      hnil (path_injective hcs.plain (List.forall_mem_nil _) heq)
    rw [← dirPath_of_ne_nil hnil]
    rw [← dirPath_of_ne_nil hnil] at hpath
    constructor
    · rintro (heq | hdir)
      · exact absurd heq hpath
      · exact Or.inr hdir
    · exact fun hreq => Or.inr (isDirectory_of_requestable hcs hnil hreq)

variable (h : TreeProject s projectId rootLayerId)

include h

/-- Readable trees are shown as they are. -/
theorem TreeProject.treeListingExact (hr : TreeReadable s projectId rootLayerId) :
    TreeListingExact s projectId rootLayerId := by
  have hlisting : ∀ paths compact, paths ≠ [] →
      (∀ q ∈ paths, Requestable s projectId rootLayerId (normalizeFullPath q)) →
      ∃ entries, listProjectTreeMulti s projectId paths compact = .nodes entries ∧
        ∀ q ∈ paths, ∃ nodes, entries.lookup (normalizeFullPath q) = some nodes ∧
          ListsExactly s projectId rootLayerId (normalizeFullPath q) (nodes.map (·.shown)) := by
    intro paths compact hne hpaths
    obtain ⟨entries, heq, hnodes⟩ := listProjectTreeMulti_eq h compact hne hpaths
    refine ⟨entries, heq, fun q hq => ?_⟩
    obtain ⟨nodes, hlookup, hperm⟩ := hnodes q hq
    obtain ⟨ds, hds, hname⟩ := h.exists_canonical (hpaths q hq)
    refine ⟨nodes, hlookup, ListsExactly.perm ?_ hperm⟩
    have hp : prefixOf (normalizeFullPath q) ∈
        ((paths.map normalizeFullPath).map prefixOf).dedup :=
      List.mem_dedup.mpr (List.mem_map_of_mem (List.mem_map_of_mem hq))
    rw [hname] at hp ⊢
    exact h.listsExactly_listing hr hds hp
  refine ⟨hlisting, fun compact => ?_⟩
  have hlist := listsEach_of_listing fun paths => hlisting paths compact
  have hroot : Canonical [] := List.forall_mem_nil _
  -- as many levels as the deepest file has slashes
  set depths := (treeSymbols s projectId rootLayerId fileType).map (slashCount ·.name) with hdepths
  refine ⟨depths.sum, fun k hk => ⟨nodup_expandTree hlist hroot (Or.inl rfl), fun name => ?_⟩⟩
  constructor
  · exact fun hmem => (file_of_mem_expandTree hlist hroot (Or.inl rfl) hmem).1
  · rintro ⟨f, hf, rfl⟩
    obtain ⟨cs, c, hc, hname⟩ := h.fileNames f.name ⟨f, hf, rfl⟩
    have hplaced := hr.filesPlaced f hf
    have hdepth : slashCount f.name ≤ depths.sum :=
      List.single_le_sum (fun _ _ => Nat.zero_le _) _ (List.mem_map.mpr ⟨f, hf, rfl⟩)
    rw [hname] at hplaced hdepth ⊢
    rw [slashCount_dirPath hc (by simp), List.length_append, List.length_singleton] at hdepth
    have hfile : IsFile s projectId rootLayerId (dirPath ([] ++ cs ++ [c])) := ⟨f, hf, hname⟩
    have hreq : Requestable s projectId rootLayerId (dirPath ([] ++ cs)) :=
      (placed_iff hc).mp hplaced
    exact h.mem_expandTree hlist hc (by omega) hreq hfile

/-- The labels of a name depend on it alone. -/
theorem TreeProject.symbolPath_eq {symbolType : ℤ} {y y' : NewSymbol}
    (hy : y ∈ treeSymbols s projectId rootLayerId symbolType)
    (hy' : y' ∈ treeSymbols s projectId rootLayerId symbolType) (hname : y.name = y'.name) :
    y.symbolPath = y'.symbolPath := by
  obtain ⟨hmem, hkey⟩ := List.mem_filter.mp hy
  obtain ⟨hmem', hkey'⟩ := List.mem_filter.mp hy'
  simp only [Bool.and_eq_true, beq_iff_eq] at hkey hkey'
  rw [h.symbolPaths y hmem, h.symbolPaths y' hmem', hname, hkey.2, hkey'.2]

/-- Symbols of one name are below the same prefixes. -/
theorem TreeProject.mem_symbolsBelow_of_name {symbolType : ℤ} {p : Text} {y y' : NewSymbol}
    (hy : y ∈ treeSymbols s projectId rootLayerId symbolType)
    (hy' : y' ∈ symbolsBelow s projectId rootLayerId symbolType p) (hname : y'.name = y.name) :
    y ∈ symbolsBelow s projectId rootLayerId symbolType p := by
  obtain ⟨hmem', hkey⟩ := List.mem_filter.mp hy'
  rw [hname, h.symbolPath_eq hmem' hy hname] at hkey
  exact List.mem_filter.mpr ⟨hy, hkey⟩

section Listed

variable {ds : List Text} {prefixes : List Text} (hshown : ListsExactly s projectId rootLayerId
  (dirPath ds) (listing s projectId rootLayerId prefixes (prefixOf (dirPath ds))))

include hshown

/-- A directory in a listed directory is found below its prefix. -/
theorem TreeProject.dir_mem_symbolsBelow {d : NewSymbol}
    (hd : d ∈ treeSymbols s projectId rootLayerId directoryType)
    (hchild : IsChild (dirPath ds) d.name) :
    d ∈ symbolsBelow s projectId rootLayerId directoryType (prefixOf (dirPath ds)) ∧
      d.name ≠ prefixOf (dirPath ds) := by
  obtain ⟨b, hmem⟩ := (hshown.dirs d.name).mpr ⟨⟨d, hd, rfl⟩, hchild⟩
  obtain ⟨⟨d', ⟨hd', hne⟩, hname⟩, -⟩ := dir_mem_listing.mp hmem
  exact ⟨h.mem_symbolsBelow_of_name hd hd' hname, hname ▸ hne⟩

/-- A file in a listed directory is found below its prefix. -/
theorem TreeProject.file_mem_symbolsBelow {f : NewSymbol}
    (hf : f ∈ treeSymbols s projectId rootLayerId fileType)
    (hchild : IsChild (dirPath ds) f.name) :
    f ∈ symbolsBelow s projectId rootLayerId fileType (prefixOf (dirPath ds)) := by
  obtain ⟨b, hmem⟩ := (hshown.files f.name).mpr ⟨⟨f, hf, rfl⟩, hchild⟩
  obtain ⟨⟨r, hr, hpath⟩, -⟩ := file_mem_listing.mp hmem
  obtain ⟨f', hf', i, hi, o, ho, hif, hil, hoi, rfl⟩ := exists_of_mem_fileRowsOf hr
  exact h.mem_symbolsBelow_of_name hf hf' hpath

omit h in
/-- The directories found below a listed directory have names of their own. -/
theorem pairwise_of_listsExactly : (treeSymbols s projectId rootLayerId directoryType).Pairwise
    fun d d' => d ∈ symbolsBelow s projectId rootLayerId directoryType (prefixOf (dirPath ds)) ∧
        d.name ≠ prefixOf (dirPath ds) →
      d' ∈ symbolsBelow s projectId rootLayerId directoryType (prefixOf (dirPath ds)) ∧
        d'.name ≠ prefixOf (dirPath ds) → d.name ≠ d'.name := by
  have honce := hshown.once
  unfold listing symbolsBelow at honce
  rw [List.map_append, List.map_map] at honce
  have hdirs := (List.nodup_append.mp honce).1
  rw [List.Nodup, List.pairwise_map, List.pairwise_filter, List.pairwise_filter] at hdirs
  refine hdirs.imp fun {d d'} hne hd hd' heq => ?_
  refine hne (List.mem_filter.mp hd.1).2 (List.mem_filter.mp hd'.1).2 (bne_iff_ne.mpr hd.2)
    (bne_iff_ne.mpr hd'.2) ?_
  exact Prod.ext rfl heq

omit h in
/-- The files of one name that are found below a listed directory are in one object. -/
theorem objectId_of_listsExactly (hs : s.Constrained) {f f' : NewSymbol}
    (hf : f ∈ symbolsBelow s projectId rootLayerId fileType (prefixOf (dirPath ds)))
    (hf' : f' ∈ symbolsBelow s projectId rootLayerId fileType (prefixOf (dirPath ds)))
    (hname : f.name = f'.name) {i i' : SymbolInstance} (hi : i ∈ s.symbolInstances)
    (hi' : i' ∈ s.symbolInstances) (hsymbol : i.symbol = f.id) (hlayer : i.layer = rootLayerId)
    (hsymbol' : i'.symbol = f'.id) (hlayer' : i'.layer = rootLayerId) :
    i.objectId = i'.objectId := by
  have honce := hshown.once
  unfold listing at honce
  rw [List.map_append, List.map_map, List.map_map] at honce
  have hfiles := (List.nodup_append.mp honce).2.1
  obtain ⟨filetype, hrow⟩ := mem_fileRowsOf hs hf hi hsymbol hlayer
  obtain ⟨filetype', hrow'⟩ := mem_fileRowsOf hs hf' hi' hsymbol' hlayer'
  have hsame := List.inj_on_of_nodup_map hfiles (List.mem_dedup.mpr hrow)
    (List.mem_dedup.mpr hrow') (Prod.ext rfl hname)
  exact (BatchedFileRow.mk.inj hsame).1

end Listed

/-- Requestable directories have exact listings, when the tree is shown as it is. -/
theorem TreeProject.exists_listsExactly (hexact : TreeListingExact s projectId rootLayerId)
    {ds : List Text} (hds : Canonical ds)
    (hreq : Requestable s projectId rootLayerId (dirPath ds)) :
    ∃ prefixes, ListsExactly s projectId rootLayerId (dirPath ds)
      (listing s projectId rootLayerId prefixes (prefixOf (dirPath ds))) := by
  have hnorm := normalizeFullPath_dirPath hds
  have hpaths : ∀ q ∈ [dirPath ds],
      Requestable s projectId rootLayerId (normalizeFullPath q) := by
    intro q hq
    rwa [List.mem_singleton.mp hq, hnorm]
  obtain ⟨entries, heq, hnodes⟩ := listProjectTreeMulti_eq h false (List.cons_ne_nil _ _) hpaths
  obtain ⟨entries', heq', hnodes'⟩ :=
    hexact.listing [dirPath ds] false (List.cons_ne_nil _ _) hpaths
  obtain rfl := MultiTreeResult.nodes.inj (heq.symm.trans heq')
  obtain ⟨nodes, hlookup, hperm⟩ := hnodes _ List.mem_cons_self
  obtain ⟨nodes', hlookup', hshown⟩ := hnodes' _ List.mem_cons_self
  obtain rfl := Option.some.inj (hlookup.symm.trans hlookup')
  rw [hnorm] at hperm hshown
  exact ⟨_, hshown.perm hperm.symm⟩

/-- A directory is in a directory that can be requested. -/
theorem TreeProject.exists_parent_dir {d : NewSymbol}
    (hd : d ∈ treeSymbols s projectId rootLayerId directoryType) (hne : d.name ≠ ['/']) :
    ∃ ds, Canonical ds ∧ IsChild (dirPath ds) d.name ∧
      Requestable s projectId rootLayerId (dirPath ds) := by
  obtain ⟨cs, hcs, hname⟩ := h.dirNames d.name ⟨d, hd, rfl⟩
  rcases List.eq_nil_or_concat cs with rfl | ⟨ds, c, rfl⟩
  · exact absurd hname hne
  · rw [List.concat_eq_append] at hcs hname
    have hchild : IsChild (dirPath ds) d.name := ⟨ds, c, hcs, rfl, hname⟩
    exact ⟨ds, (canonical_append.mp hcs).1, hchild, h.closed _ _ ⟨d, hd, rfl⟩ hchild⟩

omit h in
/-- A file is in a directory that can be requested, when expanding meets it. -/
theorem exists_parent_file (hexact : TreeListingExact s projectId rootLayerId)
    {f : NewSymbol} (hf : f ∈ treeSymbols s projectId rootLayerId fileType) :
    ∃ ds, Canonical ds ∧ IsChild (dirPath ds) f.name ∧
      Requestable s projectId rootLayerId (dirPath ds) := by
  have hlist := listsEach_of_listing fun paths => hexact.listing paths false
  obtain ⟨levels, hlevels⟩ := hexact.expansion false
  have hmet := ((hlevels levels le_rfl).2 f.name).mpr ⟨f, hf, rfl⟩
  have hroot : Canonical [] := List.forall_mem_nil _
  obtain ⟨-, ds, c, hc, hreq, hname⟩ := file_of_mem_expandTree hlist hroot (Or.inl rfl) hmet
  rw [List.nil_append] at hc hreq hname
  exact ⟨ds, (canonical_append.mp hc).1, ⟨ds, c, hc, rfl, hname⟩, hreq⟩

/-- **The tree is shown as it is iff it is readable.** -/
theorem treeListingExact_iff :
    TreeListingExact s projectId rootLayerId ↔ TreeReadable s projectId rootLayerId := by
  refine ⟨fun hexact => ?_, h.treeListingExact⟩
  constructor
  case dirsDistinct =>
    rw [List.Nodup, List.pairwise_map, List.pairwise_filter, List.pairwise_iff_getElem]
    intro i j hi hj hij hroot hroot' heq
    obtain ⟨ds, hds, hchild, hreq⟩ :=
      h.exists_parent_dir (List.getElem_mem hi) (bne_iff_ne.mp hroot)
    obtain ⟨prefixes, hshown⟩ := h.exists_listsExactly hexact hds hreq
    have hbelow := h.dir_mem_symbolsBelow hshown (List.getElem_mem hi) hchild
    have hbelow' := h.dir_mem_symbolsBelow hshown (List.getElem_mem hj) (heq ▸ hchild)
    exact List.pairwise_iff_getElem.mp (pairwise_of_listsExactly hshown) i j hi hj hij hbelow
      hbelow' heq
  case oneObject =>
    intro f hf f' hf' hname i hi i' hi' hsymbol hlayer hsymbol' hlayer'
    obtain ⟨ds, hds, hchild, hreq⟩ := exists_parent_file hexact hf
    obtain ⟨prefixes, hshown⟩ := h.exists_listsExactly hexact hds hreq
    have hbelow := h.file_mem_symbolsBelow hshown hf hchild
    have hbelow' := h.file_mem_symbolsBelow hshown hf' (hname ▸ hchild)
    exact objectId_of_listsExactly hshown h.constrained hbelow hbelow' hname hi hi' hsymbol
      hlayer hsymbol' hlayer'
  case filesPlaced =>
    intro f hf
    obtain ⟨ds, hds, hchild, hreq⟩ := exists_parent_file hexact hf
    obtain ⟨c, hc, hname⟩ := (isChild_dirPath hds).mp hchild
    rw [hname]
    exact (placed_iff hc).mpr hreq
  case dirLabels =>
    intro d hd hne
    obtain ⟨ds, hds, hchild, hreq⟩ := h.exists_parent_dir hd hne
    obtain ⟨prefixes, hshown⟩ := h.exists_listsExactly hexact hds hreq
    exact labels_of_below hds (h.dir_mem_symbolsBelow hshown hd hchild).1 hchild
  case fileLabels =>
    intro f hf
    obtain ⟨ds, hds, hchild, hreq⟩ := exists_parent_file hexact hf
    obtain ⟨prefixes, hshown⟩ := h.exists_listsExactly hexact hds hreq
    exact labels_of_below hds (h.file_mem_symbolsBelow hshown hf hchild) hchild

end Exact

/-! ### Samples -/

/-- The upload of a directory `/a` with one empty file. -/
def treeRequests (leaf : Text) : List Request :=
  [.uploadIndex ⟨['p'], ['/'], [], []⟩ (some 1) (some 1) [1],
    .symbolChunk 1 0 ⟨['p'], ['/'], [], [⟨1, dirPath [], directoryType, 0⟩,
      ⟨2, dirPath [['a']], directoryType, 0⟩, ⟨3, dirPath [['a'], leaf], fileType, 0⟩]⟩,
    .objectChunk 1 0 ⟨['p'], ['/'],
      [⟨1, [], dirPath [['a'], leaf], [], [], [], [⟨3, 9, 0, 0⟩], []⟩], []⟩,
    .finalize 1]

/-- The tables after it, as far as the tree is concerned. -/
def treeUploaded (leaf : Text) (s : Store) : Prop :=
  (∃ p, s.findProject 1 = some p ∧ p.uploadStatus = .complete ∧ p.rootLayerId = 3) ∧
    (treeSymbols s 1 3 directoryType).map (·.name) = [dirPath [], dirPath [['a']]] ∧
      (treeSymbols s 1 3 fileType).map (·.name) = [dirPath [['a'], leaf]] ∧
        ∀ f ∈ treeSymbols s 1 3 fileType, ∃ i ∈ s.symbolInstances, i.symbol = f.id ∧ i.layer = 3

instance (leaf : Text) (s : Store) : Decidable (treeUploaded leaf s) := by
  unfold treeUploaded
  infer_instance

/-- The sample is a complete project with canonical names. -/
theorem treeProject_of_treeUploaded {hashBytes : Bytes → Text}
    {guard : UploadState → Request → Bool} {canaryRootHash : Bytes} {st : UploadState}
    (hrun : Relation.ReflTransGen (UploadStep hashBytes guard) (.initial canaryRootHash) st)
    {leaf : Text} (hleaf : Canonical [['a'], leaf]) (h : treeUploaded leaf st.store) :
    TreeProject st.store 1 3 := by
  obtain ⟨hproject, hdirs, hfiles, hinstances⟩ := h
  have hdir : ∀ name, IsDirectory st.store 1 3 name ↔ name = dirPath [] ∨ name = dirPath [['a']] := by
    intro name
    have hmem : IsDirectory st.store 1 3 name ↔
        name ∈ (treeSymbols st.store 1 3 directoryType).map (·.name) := List.mem_map.symm
    rw [hmem, hdirs, List.mem_cons, List.mem_singleton]
  have hfile : ∀ name, IsFile st.store 1 3 name ↔ name = dirPath [['a'], leaf] := by
    intro name
    have hmem : IsFile st.store 1 3 name ↔
        name ∈ (treeSymbols st.store 1 3 fileType).map (·.name) := List.mem_map.symm
    rw [hmem, hfiles, List.mem_singleton]
  have ha : Canonical [['a']] := List.forall_mem_singleton.mpr (hleaf _ List.mem_cons_self)
  refine ⟨hproject, constrained_of_run hrun, pathsComputed_of_run hrun, ?_, ?_, ?_, hinstances⟩
  · intro name hname
    rcases (hdir name).mp hname with rfl | rfl
    · exact ⟨[], List.forall_mem_nil _, rfl⟩
    · exact ⟨_, ha, rfl⟩
  · intro name hname
    exact ⟨[['a']], leaf, hleaf, (hfile name).mp hname⟩
  · rintro _ name hname ⟨cs, c, hc, rfl, hpath⟩
    have hne : cs ++ [c] ≠ [] := by simp
    rcases (hdir name).mp hname with rfl | rfl
    · exact absurd (dirPath_injective (List.forall_mem_nil _) hc hpath).symm hne
    · have hcs := dirPath_injective ha hc hpath
      cases cs with
      | nil => exact Or.inl rfl
      | cons d cs => simp at hcs

/-- A project of one directory and one file that is shown as it is. -/
theorem treeListingExact_plain : ∃ st,
    Relation.ReflTransGen (UploadStep (fun _ => emptyDigest) uploadSafe) (.initial [0]) st ∧
      TreeProject st.store 1 3 ∧ TreeListingExact st.store 1 3 := by
  obtain ⟨st, hst, hobs⟩ := Option.map_eq_some_iff.mp (show
    (serveAll (fun _ => emptyDigest) uploadSafe (.initial [0]) (treeRequests ['f'])).map
      (fun st => decide (treeUploaded ['f'] st.store ∧ TreeReadable st.store 1 3)) = some true
    by decide +kernel)
  obtain ⟨huploaded, hreadable⟩ := of_decide_eq_true hobs
  have hrun := run_of_serveAll hst
  have hleaf : Canonical [['a'], ['f']] := by
    refine List.forall_mem_cons.mpr ⟨?_, List.forall_mem_singleton.mpr ?_⟩ <;>
      constructor <;> decide
  have htree := treeProject_of_treeUploaded hrun hleaf huploaded
  exact ⟨st, hrun, htree, (treeListingExact_iff htree).mpr hreadable⟩

/-- **A file that the tree does not show.**  Its name `/a/x:y` has two components, and three
labels: no level of the tree has it. -/
theorem not_treeListingExact_split : ∃ st,
    Relation.ReflTransGen (UploadStep (fun _ => emptyDigest) uploadSafe) (.initial [0]) st ∧
      TreeProject st.store 1 3 ∧ IsFile st.store 1 3 (dirPath [['a'], ['x', ':', 'y']]) ∧
        listProjectTreeMulti st.store 1 [dirPath [['a']]] false = .nodes [(dirPath [['a']], [])] ∧
          ¬TreeListingExact st.store 1 3 := by
  obtain ⟨st, hst, hobs⟩ := Option.map_eq_some_iff.mp (show
    (serveAll (fun _ => emptyDigest) uploadSafe (.initial [0])
      (treeRequests ['x', ':', 'y'])).map (fun st => decide
        (treeUploaded ['x', ':', 'y'] st.store ∧
          listProjectTreeMulti st.store 1 [dirPath [['a']]] false =
            .nodes [(dirPath [['a']], [])])) = some true
    by decide +kernel)
  obtain ⟨huploaded, hlisted⟩ := of_decide_eq_true hobs
  have hrun := run_of_serveAll hst
  have hleaf : Canonical [['a'], ['x', ':', 'y']] := by
    refine List.forall_mem_cons.mpr ⟨?_, List.forall_mem_singleton.mpr ?_⟩ <;>
      constructor <;> decide
  have htree := treeProject_of_treeUploaded hrun hleaf huploaded
  have hmem : ∀ {symbolType : ℤ} {name : Text} {names : List Text},
      (treeSymbols st.store 1 3 symbolType).map (·.name) = names → name ∈ names →
        ∃ y ∈ treeSymbols st.store 1 3 symbolType, y.name = name := by
    rintro symbolType name _ rfl hname
    exact List.mem_map.mp hname
  have hdir : IsDirectory st.store 1 3 (dirPath [['a']]) := hmem huploaded.2.1 (by decide)
  have hfile : IsFile st.store 1 3 (dirPath [['a'], ['x', ':', 'y']]) :=
    hmem huploaded.2.2.1 (by decide)
  refine ⟨st, hrun, htree, hfile, hlisted, fun hexact => ?_⟩
  have hnorm : normalizeFullPath (dirPath [['a']]) = dirPath [['a']] := by decide +kernel
  obtain ⟨entries, heq, hnodes⟩ := hexact.listing [dirPath [['a']]] false
    (List.cons_ne_nil _ _) (by
      intro q hq
      rw [List.mem_singleton.mp hq, hnorm]
      exact Or.inr hdir)
  obtain rfl := MultiTreeResult.nodes.inj (heq.symm.trans hlisted)
  obtain ⟨nodes, hlookup, hshown⟩ := hnodes _ List.mem_cons_self
  rw [hnorm] at hlookup hshown
  obtain rfl : nodes = [] := (Option.some.inj hlookup).symm
  obtain ⟨b, hb⟩ := (hshown.files _).mpr
    ⟨hfile, [['a']], ['x', ':', 'y'], hleaf, rfl, rfl⟩
  cases hb

end Askl
