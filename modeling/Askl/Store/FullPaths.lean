import Askl.Library.Splitting
import Askl.Store.TreeListing
import Mathlib.Data.List.TakeWhile

/-!
# Normalised paths

Objects are told apart by their normalised paths.  The normalisation keeps a stack of names
over the pieces of the path; here it is compared with the resolution of the path's parts from
left to right, stated without a stack or a split.

## Main definitions

* `HasParts` — the parts of a path, between separators of either kind.
* `Resolves` — the names a list of parts stands for, a step up at the top staying there.
* `renderPath` — the path of some names, from the root or not.
* `FullPathRight` — what the normalised path of a path must be.

## Main results

* `hasParts_iff`, `resolves_iff` — every path has one list of parts, and one list of names.
* `normalizeFullPath_eq_renderPath` — the normalised path is that of the names.
* `fullPathRight` — the normalisation is right for every path.
-/

namespace Askl

open Splitting

/-! ### Parts -/

/-- A separator of either kind. -/
def isPathSeparator (c : Char) : Bool := c == '/' || c == '\\'

/-- Whether a path starts at the root. -/
def isAbsolute (path : Text) : Bool := path.head?.any isPathSeparator

/-- The parts of a path: the runs of characters that are no separators, each as long as it
can be. -/
inductive HasParts : Text → List Text → Prop
  | nil : HasParts [] []
  | separator {c : Char} {path : Text} {parts : List Text} : isPathSeparator c = true →
      HasParts path parts → HasParts (c :: path) parts
  | part {part path : Text} {parts : List Text} : part ≠ [] →
      (∀ c ∈ part, isPathSeparator c = false) → (path = [] ∨ isAbsolute path = true) →
      HasParts path parts → HasParts (part ++ path) (part :: parts)

/-- The parts of a path, computed. -/
def pathParts (path : Text) : List Text := pieces isPathSeparator (fun _ => true) path

theorem pathParts_separator {c : Char} (hc : isPathSeparator c = true) (path : Text) :
    pathParts (c :: path) = pathParts path :=
  pieces_append_cons hc [] path

theorem pathParts_part {part path : Text} (hne : part ≠ [])
    (hpart : ∀ c ∈ part, isPathSeparator c = false) (hpath : path = [] ∨ isAbsolute path = true) :
    pathParts (part ++ path) = part :: pathParts path := by
  have hsingle : pathParts part = [part] :=
    pieces_eq_singleton hne fun c hc => ⟨hpart c hc, rfl⟩
  cases path with
  | nil =>
    rw [List.append_nil, hsingle]
    rfl
  | cons c path =>
    have hc : isPathSeparator c = true := by
      simpa [isAbsolute] using hpath
    rw [pathParts_separator hc, pathParts, pieces_append_cons hc]
    exact congrArg (· ++ pathParts path) hsingle

/-- The parts of a path can be read off one after the other. -/
theorem hasParts_pathParts (path : Text) : HasParts path (pathParts path) := by
  induction hn : path.length using Nat.strong_induction_on generalizing path with
  | _ n ih =>
  cases path with
  | nil => exact .nil
  | cons c path =>
    by_cases hc : isPathSeparator c = true
    · rw [pathParts_separator hc]
      exact .separator hc (ih path.length (by simp [← hn]) path rfl)
    · -- the part goes on to the next separator
      obtain ⟨part, rest, heq, hpart, hrest⟩ : ∃ part rest, path = part ++ rest ∧
          (∀ d ∈ part, isPathSeparator d = false) ∧ (rest = [] ∨ isAbsolute rest = true) := by
        refine ⟨path.takeWhile (!isPathSeparator ·), path.dropWhile (!isPathSeparator ·),
          List.takeWhile_append_dropWhile.symm, fun d hd => ?_, ?_⟩
        · simpa using List.mem_takeWhile_imp hd
        · cases hdrop : path.dropWhile (!isPathSeparator ·) with
          | nil => exact Or.inl rfl
          | cons d rest =>
            have hd := List.head_dropWhile_not (!isPathSeparator ·) (l := path) (by simp [hdrop])
            simp only [hdrop, List.head_cons, Bool.not_eq_false'] at hd
            exact Or.inr (by simpa [isAbsolute] using hd)
      have hcpart : ∀ d ∈ c :: part, isPathSeparator d = false := by
        intro d hd
        rcases List.mem_cons.mp hd with rfl | hd
        · simpa using hc
        · exact hpart d hd
      rw [heq, ← List.cons_append, pathParts_part (List.cons_ne_nil c part) hcpart hrest]
      refine .part (List.cons_ne_nil c part) hcpart hrest (ih rest.length ?_ rest rfl)
      rw [← hn, heq, List.length_cons, List.length_append]
      omega

/-- **Every path has one list of parts.** -/
theorem hasParts_iff {path : Text} {parts : List Text} :
    HasParts path parts ↔ parts = pathParts path := by
  constructor
  · intro h
    induction h with
    | nil => rfl
    | separator hc _ ih => rw [pathParts_separator hc, ih]
    | part hne hpart hpath _ ih => rw [pathParts_part hne hpart hpath, ih]
  · rintro rfl
    exact hasParts_pathParts path

theorem of_mem_pathParts {path part : Text} (h : part ∈ pathParts path) :
    part ≠ [] ∧ ∀ c ∈ part, isPathSeparator c = false := by
  obtain ⟨hmem, hne⟩ := List.mem_filter.mp h
  obtain ⟨piece, hpiece, rfl⟩ := List.mem_map.mp hmem
  rw [List.filter_true] at hne ⊢
  exact ⟨by simpa using hne, fun c hc => (of_mem_splitOnP hpiece c hc).2⟩

/-! ### Resolution -/

/-- The names a list of parts stands for, from left to right: a dot stays, two dots take the
last name away or stay at the top, any other part is a name. -/
inductive Resolves : List Text → List Text → Prop
  | nil : Resolves [] []
  | dot {parts names : List Text} : Resolves parts names → Resolves (parts ++ [['.']]) names
  | up {parts names : List Text} {name : Text} : Resolves parts (names ++ [name]) →
      Resolves (parts ++ [['.', '.']]) names
  | top {parts : List Text} : Resolves parts [] → Resolves (parts ++ [['.', '.']]) []
  | name {parts names : List Text} {part : Text} : part ≠ [] → part ≠ ['.'] →
      part ≠ ['.', '.'] → Resolves parts names → Resolves (parts ++ [part]) (names ++ [part])

theorem pushComponent_name {part : Text} (hne : part ≠ []) (hdot : part ≠ ['.'])
    (hup : part ≠ ['.', '.']) (stack : List Text) : pushComponent stack part = stack ++ [part] := by
  rw [pushComponent, if_neg (not_or.mpr ⟨hne, hdot⟩), if_neg hup]

/-- The stack resolves the parts. -/
theorem resolves_foldl {parts : List Text} (h : ∀ part ∈ parts, part ≠ []) :
    Resolves parts (parts.foldl pushComponent []) := by
  induction parts using List.reverseRecOn with
  | nil => exact .nil
  | append_singleton parts part ih =>
    have hparts := ih fun p hp => h p (List.mem_append_left _ hp)
    have hne := h part (by simp)
    rw [List.foldl_append, List.foldl_cons, List.foldl_nil]
    generalize parts.foldl pushComponent [] = stack at hparts ⊢
    by_cases hdot : part = ['.']
    · subst hdot
      exact .dot hparts
    by_cases hup : part = ['.', '.']
    · subst hup
      show Resolves _ stack.dropLast
      rcases List.eq_nil_or_concat stack with rfl | ⟨names, name, rfl⟩
      · exact .top hparts
      · rw [List.concat_eq_append, List.dropLast_concat]
        rw [List.concat_eq_append] at hparts
        exact .up hparts
    · rw [pushComponent_name hne hdot hup]
      exact .name hne hdot hup hparts

/-- **Parts stand for one list of names.** -/
theorem resolves_iff {parts names : List Text} (h : ∀ part ∈ parts, part ≠ []) :
    Resolves parts names ↔ names = parts.foldl pushComponent [] := by
  constructor
  · intro hres
    clear h
    induction hres with
    | nil => rfl
    | dot _ ih =>
      rw [List.foldl_append, ← ih]
      rfl
    | up _ ih =>
      rw [List.foldl_append, ← ih]
      exact List.dropLast_concat.symm
    | top _ ih =>
      rw [List.foldl_append, ← ih]
      rfl
    | name hne hdot hup _ ih =>
      rw [List.foldl_append, ← ih]
      exact (pushComponent_name hne hdot hup _).symm
  · rintro rfl
    exact resolves_foldl h

/-- The names are components of a normalised path. -/
theorem canonical_foldl {parts : List Text}
    (h : ∀ part ∈ parts, ∀ c ∈ part, isPathSeparator c = false) {stack : List Text}
    (hstack : Canonical stack) : Canonical (parts.foldl pushComponent stack) := by
  induction parts generalizing stack with
  | nil => exact hstack
  | cons part parts ih =>
    rw [List.foldl_cons]
    refine ih (fun p hp => h p (.tail _ hp)) ?_
    have hpart := h part List.mem_cons_self
    rw [pushComponent]
    split_ifs with hskip hup
    · exact hstack
    · exact fun c hc => hstack c (List.dropLast_subset stack hc)
    · obtain ⟨hne, hdot⟩ := not_or.mp hskip
      refine canonical_append.mpr ⟨hstack, fun c hc => ?_⟩
      obtain rfl := List.mem_singleton.mp hc
      exact ⟨hne, hdot, hup, fun hmem => absurd (hpart _ hmem) (by decide),
        fun hmem => absurd (hpart _ hmem) (by decide)⟩

/-! ### The path of some names -/

/-- The path of some names, from the root or not; no names at all are the root. -/
def renderPath (absolute : Bool) (names : List Text) : Text :=
  if names = [] then ['/']
  else if absolute then '/' :: ['/'].intercalate names
  else ['/'].intercalate names

theorem intercalate_ne_nil {name : Text} (h : name ≠ []) (names : List Text) :
    ['/'].intercalate (name :: names) ≠ [] := by
  cases names with
  | nil => rwa [List.intercalate_singleton]
  | cons name' names =>
    rw [List.intercalate_cons_cons, List.append_assoc]
    exact fun heq => h (List.append_eq_nil_iff.mp heq).1

/-- The parts that only the separator in use splits are those that either kind splits. -/
theorem splitOn_normalizePosix (path : Text) :
    (normalizePosix path).splitOn '/' = path.splitOnP isPathSeparator := by
  have htest : ((· == '/') ∘ fun c => if c == '\\' then '/' else c) = isPathSeparator := by
    funext c
    by_cases hc : c = '\\'
    · subst hc
      rfl
    · simp [isPathSeparator, hc]
  rw [normalizePosix, List.splitOn, splitOnP_map, htest]
  refine (List.map_congr_left fun piece hpiece => ?_).trans (List.map_id _)
  refine (List.map_congr_left fun c hc => ?_).trans (List.map_id _)
  have hsep := (of_mem_splitOnP hpiece c hc).2
  have hne : c ≠ '\\' := by
    rintro rfl
    exact absurd hsep (by decide)
  rw [if_neg (by simpa using hne)]
  rfl

/-- The stack skips the empty pieces. -/
theorem foldl_pathParts (path stack : List Text) :
    path.foldl pushComponent stack =
      ((path.map (List.filter fun _ => true)).filter fun t => !t.isEmpty).foldl pushComponent
        stack := by
  induction path generalizing stack with
  | nil => rfl
  | cons piece path ih =>
    rw [List.foldl_cons, List.map_cons, List.filter_true, ih]
    cases piece with
    | nil => rfl
    | cons c piece => rfl

theorem head?_normalizePosix (path : Text) :
    (normalizePosix path).head? = some '/' ↔ isAbsolute path = true := by
  cases path with
  | nil => simp [normalizePosix, isAbsolute]
  | cons c path =>
    by_cases hc : c = '\\'
    · subst hc
      simp [normalizePosix, isAbsolute, isPathSeparator]
    · simp [normalizePosix, isAbsolute, isPathSeparator, hc]

/-- **The normalised path is that of the names.** -/
theorem normalizeFullPath_eq_renderPath (path : Text) :
    normalizeFullPath path =
      renderPath (isAbsolute path) ((pathParts path).foldl pushComponent []) := by
  have hcanonical : Canonical ((pathParts path).foldl pushComponent []) :=
    canonical_foldl (fun part hpart => (of_mem_pathParts hpart).2) (List.forall_mem_nil _)
  have hstack : ((normalizePosix path).splitOn '/').foldl pushComponent [] =
      (pathParts path).foldl pushComponent [] := by
    rw [splitOn_normalizePosix, foldl_pathParts]
    rfl
  unfold normalizeFullPath
  simp only [hstack, head?_normalizePosix]
  generalize (pathParts path).foldl pushComponent [] = names at hcanonical
  cases names with
  | nil =>
    rw [renderPath, if_pos rfl]
    cases isAbsolute path <;> rfl
  | cons name names =>
    have hne := intercalate_ne_nil (hcanonical name List.mem_cons_self).ne_nil names
    rw [renderPath, if_neg (List.cons_ne_nil name names)]
    cases isAbsolute path with
    | false => simp [hne]
    | true => simp

/-! ### Normalised paths -/

/-- The parts of the path of some names. -/
theorem pathParts_renderPath {names : List Text} (h : Canonical names) (absolute : Bool) :
    pathParts (renderPath absolute names) = names := by
  have hread : pathParts (['/'].intercalate names) = names := by
    refine pieces_intercalate (by decide) fun name hname => ?_
    refine ⟨(h name hname).ne_nil, fun c hc => ⟨?_, rfl⟩⟩
    rw [isPathSeparator, Bool.or_eq_false_iff, beq_eq_false_iff_ne, beq_eq_false_iff_ne]
    exact ⟨fun heq => (h name hname).slash (heq ▸ hc),
      fun heq => (h name hname).backslash (heq ▸ hc)⟩
  rw [renderPath]
  split_ifs with hnil
  · rw [hnil]
    rfl
  · rw [pathParts_separator (by decide), hread]
  · exact hread

/-- The path of some names starts at the root when it is asked to, or has no names. -/
theorem isAbsolute_renderPath {names : List Text} (h : Canonical names) (absolute : Bool) :
    isAbsolute (renderPath absolute names) = true ↔ absolute = true ∨ names = [] := by
  rw [renderPath]
  split_ifs with hnil habs
  · simp [hnil, isAbsolute, isPathSeparator]
  · simp [habs, isAbsolute, isPathSeparator]
  · obtain ⟨name, names, rfl⟩ := List.exists_cons_of_ne_nil hnil
    have hname := h name List.mem_cons_self
    obtain ⟨c, cs, hc⟩ := List.exists_cons_of_ne_nil hname.ne_nil
    have hmem : c ∈ name := hc ▸ List.mem_cons_self
    have hsep : isPathSeparator c = false := by
      rw [isPathSeparator, Bool.or_eq_false_iff, beq_eq_false_iff_ne, beq_eq_false_iff_ne]
      exact ⟨fun heq => hname.slash (heq ▸ hmem), fun heq => hname.backslash (heq ▸ hmem)⟩
    have hhead : (['/'].intercalate (name :: names)).head? = some c := by
      rw [hc]
      cases names <;> simp [List.intercalate_cons_cons]
    simp [isAbsolute, hhead, hsep, habs]

/-- A path without the separator it may begin with. -/
def dropRoot (path : Text) : Text := if isAbsolute path then path.tail else path

theorem dropRoot_renderPath {names : List Text} (h : Canonical names) (hne : names ≠ [])
    (absolute : Bool) : dropRoot (renderPath absolute names) = ['/'].intercalate names := by
  have habs := isAbsolute_renderPath h absolute
  rw [or_iff_left hne] at habs
  rw [dropRoot]
  cases absolute with
  | true =>
    rw [if_pos (habs.mpr rfl), renderPath, if_neg hne, if_pos rfl, List.tail_cons]
  | false =>
    rw [if_neg fun hcon => Bool.false_ne_true (habs.mp hcon), renderPath, if_neg hne,
      if_neg Bool.false_ne_true]

/-- A normalised path is its own. -/
theorem normalizeFullPath_renderPath {names : List Text} (h : Canonical names) (absolute : Bool) :
    normalizeFullPath (renderPath absolute names) = renderPath absolute names := by
  rw [normalizeFullPath_eq_renderPath, pathParts_renderPath h, foldl_pushComponent h,
    List.nil_append]
  by_cases hnil : names = []
  · rw [renderPath, if_pos hnil, renderPath, if_pos hnil]
  · congr 1
    rw [Bool.eq_iff_iff, isAbsolute_renderPath h, or_iff_left hnil]

/-- The joined names are split into the names. -/
theorem splitOnP_intercalate {names : List Text} (h : Canonical names) (hne : names ≠ []) :
    (['/'].intercalate names).splitOnP isPathSeparator = names := by
  have hposix : normalizePosix (['/'].intercalate names) = ['/'].intercalate names := by
    refine (List.map_congr_left fun c hc => ?_).trans (List.map_id _)
    rcases mem_intercalate_singleton hc with rfl | ⟨name, hname, hc⟩
    · rfl
    · have hback : c ≠ '\\' := fun heq => (h name hname).backslash (heq ▸ hc)
      simp [hback]
  rw [← splitOn_normalizePosix, hposix]
  exact List.splitOn_intercalate '/' (fun name hname => (h name hname).slash) hne

/-! ### The claim -/

/-- What the normalised path of a path must be: its own normalised path; the root, or made of
names only, past a separator it may begin with; absolute for an absolute path; for a relative
one relative, unless no name is left, and then the root; and the path of the names the parts
stand for. -/
structure FullPathRight (path : Text) : Prop where
  idempotent : normalizeFullPath (normalizeFullPath path) = normalizeFullPath path
  plain : normalizeFullPath path = ['/'] ∨
    ∀ part ∈ (dropRoot (normalizeFullPath path)).splitOnP isPathSeparator, part ≠ [] ∧
      part ≠ ['.'] ∧ part ≠ ['.', '.']
  absolute : isAbsolute path = true → isAbsolute (normalizeFullPath path) = true
  relative : isAbsolute path = false → isAbsolute (normalizeFullPath path) = false ∨
    normalizeFullPath path = ['/'] ∧ ∃ parts, HasParts path parts ∧ Resolves parts []
  lexical : ∃ parts names, HasParts path parts ∧ Resolves parts names ∧
    normalizeFullPath path = renderPath (isAbsolute path) names
  unique : ∀ parts names, HasParts path parts → Resolves parts names →
    normalizeFullPath path = renderPath (isAbsolute path) names

/-- **The normalisation is right for every path.** -/
theorem fullPathRight (path : Text) : FullPathRight path := by
  have hne : ∀ part ∈ pathParts path, part ≠ [] := fun part hpart => (of_mem_pathParts hpart).1
  have hcanonical : Canonical ((pathParts path).foldl pushComponent []) :=
    canonical_foldl (fun part hpart => (of_mem_pathParts hpart).2) (List.forall_mem_nil _)
  have heq := normalizeFullPath_eq_renderPath path
  have hresolves := resolves_foldl hne
  have huniq : ∀ parts names, HasParts path parts → Resolves parts names →
      names = (pathParts path).foldl pushComponent [] := by
    intro parts names hparts hnames
    obtain rfl := hasParts_iff.mp hparts
    exact (resolves_iff hne).mp hnames
  generalize (pathParts path).foldl pushComponent [] = names at hcanonical heq hresolves huniq
  refine ⟨?_, ?_, ?_, ?_, ⟨_, names, hasParts_pathParts path, hresolves, heq⟩, ?_⟩
  · rw [heq, normalizeFullPath_renderPath hcanonical]
  · rw [heq]
    by_cases hnil : names = []
    · exact Or.inl (if_pos hnil)
    · right
      rw [dropRoot_renderPath hcanonical hnil, splitOnP_intercalate hcanonical hnil]
      exact fun part hpart => ⟨(hcanonical part hpart).ne_nil, (hcanonical part hpart).ne_dot,
        (hcanonical part hpart).ne_dotdot⟩
  · intro habs
    rw [heq, isAbsolute_renderPath hcanonical]
    exact Or.inl habs
  · intro hrel
    by_cases hnil : names = []
    · rw [hnil] at hresolves
      rw [heq]
      exact Or.inr ⟨if_pos hnil, _, hasParts_pathParts path, hresolves⟩
    · left
      rw [heq, Bool.eq_false_iff, ne_eq, isAbsolute_renderPath hcanonical, or_iff_left hnil, hrel]
      exact Bool.false_ne_true
  · intro parts names' hparts hnames
    rw [heq, huniq parts names' hparts hnames]

end Askl
