import Askl.Library.Splitting
import Askl.Store.FilterHash

/-!
# Symbol paths

The path of a symbol is made from its name twice over: by `symbol_path_and_leaf`, before a
row is inserted, and by the trigger `set_symbol_path`, for a row that comes without one.
Both drop some characters, split the rest at separators and keep the word characters of
every token; a name that leaves no token has the path `unknown`.

## Main definitions

* `isSeparator` — the characters a name is split at.
* `symbolNameToLtree`, `setSymbolPath` — the function and the trigger of the database.
* `symbolTypesTable` — the rows of `symbol_types`, as the migrations leave them.

## Main results

* `normalizeSymbolTokens_eq_pieces` — the tokens are the pieces of the name.
* `symbolNameToPath_joinLabels` — **a path is read back off its text.**
* `setSymbolPath_eq` — **the trigger stores the path and the leaf of
  `symbol_path_and_leaf`.**
-/

namespace Askl

open Splitting

/-! ### Tokens -/

/-- The characters a name is split at. -/
def isSeparator (c : Char) : Bool := c == '.' || c == '/' || c == ':'

/-- The cleaned tokens of `normalize_symbol_tokens`. -/
theorem filterMap_cleaned : ∀ tokens : List Text,
    ((tokens.filter fun t => !t.isEmpty).filterMap fun token =>
      let cleaned := token.filter isLeafChar
      if cleaned.isEmpty then none else some cleaned) =
    (tokens.map (List.filter isLeafChar)).filter fun t => !t.isEmpty
  | [] => rfl
  | [] :: tokens => filterMap_cleaned tokens
  | (c :: token) :: tokens => by
    have ih := filterMap_cleaned tokens
    rw [List.filter_cons_of_pos rfl, List.filterMap_cons, List.map_cons, ih]
    cases (c :: token).filter isLeafChar <;> rfl

/-- The characters `clean_and_split_string` removes are neither separators nor kept. -/
theorem normalizeSymbolTokens_eq_pieces (input : Text) :
    normalizeSymbolTokens input = pieces isSeparator isLeafChar input := by
  set keeps : Char → Bool := fun c =>
    !(['*', '[', ']', '{', '}', ',', '@', '-', ' ', '(', ')'].contains c) with hkeeps
  have hkeep : ∀ p : Char → Bool,
      (['*', '[', ']', '{', '}', ',', '@', '-', ' ', '(', ')'].all fun c => !p c) = true →
        ∀ c, p c = true → keeps c = true := by
    intro p hp c hc
    by_contra hdrop
    rw [hkeeps, Bool.not_eq_true, Bool.not_eq_false', List.contains_iff_mem] at hdrop
    have := List.all_eq_true.mp hp c hdrop
    rw [hc] at this
    cases this
  rw [← pieces_filter (hkeep isSeparator (by decide)) (hkeep isLeafChar (by decide))]
  exact filterMap_cleaned ((input.filter keeps).splitOnP isSeparator)

/-- The tokens of a name, for one that separates by dots or not. -/
def nameTokens (dotIsSeparator : Bool) (name : Text) : List Text :=
  normalizeSymbolTokens (replaceDots dotIsSeparator name)

theorem isLabel_of_mem_nameTokens {dotIsSeparator : Bool} {name label : Text}
    (h : label ∈ nameTokens dotIsSeparator name) : IsLabel label :=
  isLabel_of_mem_normalizeSymbolTokens h

/-- `symbol_name_to_path`, for a name that separates by dots or not. -/
theorem symbolNameToPath_eq (dotIsSeparator : Bool) (name : Text) :
    symbolNameToPath (replaceDots dotIsSeparator name) =
      if (nameTokens dotIsSeparator name).isEmpty then [unknownLabel]
      else nameTokens dotIsSeparator name := rfl

theorem symbolPathAndLeaf_fst (name : Text) (symbolType : ℤ) :
    (symbolPathAndLeaf name symbolType).1 =
      symbolNameToPath (replaceDots (dotIsSeparator symbolType) name) := by
  rw [symbolPathAndLeaf, replaceDots]
  split <;> rfl

theorem symbolPathAndLeaf_snd (name : Text) (symbolType : ℤ) :
    (symbolPathAndLeaf name symbolType).2 =
      (symbolPathAndLeaf name symbolType).1.getLastD unknownLabel := rfl

/-- The leaf is the last token, or `unknown`. -/
theorem symbolPathAndLeaf_snd_eq_extractLeafToken (name : Text) (symbolType : ℤ) :
    (symbolPathAndLeaf name symbolType).2 =
      extractLeafToken name (dotIsSeparator symbolType) := by
  rw [symbolPathAndLeaf_snd, symbolPathAndLeaf_fst, symbolNameToPath_eq, extractLeafToken]
  show _ = (nameTokens (dotIsSeparator symbolType) name).getLastD unknownLabel
  cases nameTokens (dotIsSeparator symbolType) name <;> rfl

theorem pathConstructed_symbolPathAndLeaf (name : Text) (symbolType : ℤ) :
    PathConstructed (symbolPathAndLeaf name symbolType).1 := by
  rw [symbolPathAndLeaf_fst]
  exact pathConstructed_symbolNameToPath _

/-! ### The text of a path -/

theorem IsLabel.not_isSeparator {t : Text} (h : IsLabel t) {c : Char} (hc : c ∈ t) :
    isSeparator c = false := by
  by_contra hsep
  rw [Bool.not_eq_false, isSeparator, Bool.or_eq_true, Bool.or_eq_true, beq_iff_eq, beq_iff_eq,
    beq_iff_eq] at hsep
  have hleaf := h.2 c hc
  rcases hsep with (rfl | rfl) | rfl <;> exact absurd hleaf (by decide)

/-- Labels are the tokens of their text. -/
theorem normalizeSymbolTokens_joinLabels {labels : List Text} (h : ∀ l ∈ labels, IsLabel l) :
    normalizeSymbolTokens (joinLabels labels) = labels := by
  rw [normalizeSymbolTokens_eq_pieces]
  exact pieces_intercalate (by decide) fun t ht =>
    ⟨(h t ht).1, fun c hc => ⟨(h t ht).not_isSeparator hc, (h t ht).2 c hc⟩⟩

/-- **A path is read back off its text.** -/
theorem symbolNameToPath_joinLabels {path : Ltree} (h : PathConstructed path) :
    symbolNameToPath (joinLabels path) = path := by
  rw [symbolNameToPath, normalizeSymbolTokens_joinLabels h.2]
  exact if_neg (by simpa using h.1)

theorem replaceDots_eq_self {dotIsSeparator : Bool} {name : Text} (h : '.' ∉ name) :
    replaceDots dotIsSeparator name = name := by
  rw [replaceDots]
  split
  · rfl
  · rw [List.map_congr_left (g := id), List.map_id]
    intro c hc
    exact if_neg (by rw [beq_iff_eq]; rintro rfl; exact h hc)

/-- A label is a path of its own. -/
theorem IsLabel.symbolNameToPath {t : Text} (h : IsLabel t) : symbolNameToPath t = [t] := by
  have hpath : PathConstructed [t] := ⟨List.cons_ne_nil _ _, by simpa using h⟩
  have htext : joinLabels [t] = t := List.intercalate_singleton
  rw [← htext, symbolNameToPath_joinLabels hpath, htext]

/-- A path's text with its dots replaced is a single label. -/
theorem PathConstructed.isLabel_replaceDots {path : Ltree} (h : PathConstructed path) :
    IsLabel (replaceDots false (joinLabels path)) := by
  constructor
  · obtain ⟨l, path', rfl⟩ := List.exists_cons_of_ne_nil h.1
    obtain ⟨c, l', rfl⟩ := List.exists_cons_of_ne_nil (h.2 l List.mem_cons_self).1
    cases path' <;> exact List.cons_ne_nil _ _
  · intro c hc
    obtain ⟨d, hd, rfl⟩ := List.mem_map.mp hc
    rcases mem_intercalate_singleton hd with rfl | ⟨l, hl, hdl⟩
    · decide
    · have hleaf := (h.2 l hl).2 d hdl
      split
      · decide
      · exact hleaf

/-- Without separating dots only a path of one label is read back. -/
theorem symbolNameToPath_replaceDots_joinLabels {path : Ltree} (h : PathConstructed path) :
    symbolNameToPath (replaceDots false (joinLabels path)) = path ↔ path.length = 1 := by
  rw [h.isLabel_replaceDots.symbolNameToPath]
  constructor
  · rintro heq
    rw [← heq]
    rfl
  · intro hlength
    obtain ⟨l, rfl⟩ := List.length_eq_one_iff.mp hlength
    have htext : joinLabels [l] = l := List.intercalate_singleton
    rw [htext, replaceDots_eq_self ((h.2 l List.mem_cons_self).not_mem_of (by decide))]

/-! ### The trigger -/

/-- A row of `symbol_types`, as `set_symbol_path` reads it. -/
structure SymbolTypeRow where
  id : ℤ
  name : String
  dotIsSeparator : Bool
  deriving DecidableEq, Repr

/-- The rows the migrations insert, after the updates of `dot_is_separator`. -/
def symbolTypesTable : List SymbolTypeRow :=
  [⟨1, "function", true⟩, ⟨2, "file", false⟩, ⟨3, "module", true⟩, ⟨4, "directory", false⟩,
    ⟨5, "type", true⟩, ⟨6, "data", true⟩, ⟨7, "macro", true⟩, ⟨8, "field", true⟩,
    ⟨9, "content", true⟩]

/-- The bracket expression of the characters that are removed first. -/
def strippedClass (c : Char) : Bool :=
  c == '*' || c == '[' || c == ']' || c == '{' || c == '}' || c == ',' || c == '@' ||
    c == '-' || c == ' ' || c == '(' || c == ')'

/-- The bracket expression `[^A-Za-z0-9_]`. -/
def outsideLabelClass (c : Char) : Bool :=
  !((decide ('A' ≤ c) && decide (c ≤ 'Z')) || (decide ('a' ≤ c) && decide (c ≤ 'z')) ||
    (decide ('0' ≤ c) && decide (c ≤ '9')) || c == '_')

/-- `regexp_replace(t, class, '', 'g')`. -/
def regexpRemove (removed : Char → Bool) (t : Text) : Text := t.filter fun c => !removed c

/-- `array_agg` of no rows is `NULL`. -/
def arrayAgg (rows : List Text) : Option (List Text) :=
  if rows.isEmpty then none else some rows

/-- The text `symbol_name_to_ltree` casts. -/
def symbolNameToLtreeText (input : Text) (dotIsSep : Bool) : Text :=
  let stripped := regexpRemove strippedClass input
  let tokens := if dotIsSep then stripped.splitOnP fun c => c == '.' || c == '/' || c == ':'
    else (stripped.map fun c => if c == '.' then '_' else c).splitOnP fun c => c == '/' || c == ':'
  let cleaned := tokens.map (regexpRemove outsideLabelClass)
  ((arrayAgg (cleaned.filter fun t => !t.isEmpty)).map joinLabels).getD unknownLabel

/-- The cast to `ltree`, which refuses labels and paths that are too long. -/
def castLtree (accepts : Ltree → Bool) (t : Text) : Option Ltree :=
  if accepts (t.splitOn '.') then some (t.splitOn '.') else none

/-- `symbol_name_to_ltree`. -/
def symbolNameToLtree (accepts : Ltree → Bool) (input : Text) (dotIsSep : Bool) : Option Ltree :=
  castLtree accepts (symbolNameToLtreeText input dotIsSep)

/-- `set_symbol_path`: the path and the leaf name of the row that is inserted. -/
def setSymbolPath (accepts : Ltree → Bool) (types : List SymbolTypeRow) (name : Text)
    (symbolType : ℤ) : Option (Ltree × Text) := do
  let dotIsSep := ((types.find? fun t => t.id == symbolType).map (·.dotIsSeparator)).getD true
  let computedPath ← symbolNameToLtree accepts name dotIsSep
  pure (computedPath, joinLabels (computedPath.drop (computedPath.length - 1)))

/-- `COALESCE((SELECT dot_is_separator …), true)` is `dot_is_separator`. -/
theorem dotIsSeparator_symbolTypesTable (symbolType : ℤ) :
    ((symbolTypesTable.find? fun t => t.id == symbolType).map (·.dotIsSeparator)).getD true =
      dotIsSeparator symbolType := by
  by_cases h : ∃ t ∈ symbolTypesTable, t.id = symbolType
  · obtain ⟨t, ht, rfl⟩ := h
    revert t
    decide
  · have hnone : (symbolTypesTable.find? fun t => t.id == symbolType) = none := by
      rw [List.find?_eq_none]
      intro t ht
      simpa using fun heq => h ⟨t, ht, heq⟩
    rw [hnone, dotIsSeparator]
    have h2 : symbolType ≠ 2 := fun heq => h ⟨⟨2, "file", false⟩, by decide, heq.symm⟩
    have h4 : symbolType ≠ 4 := fun heq => h ⟨⟨4, "directory", false⟩, by decide, heq.symm⟩
    simp [h2, h4]

theorem not_outsideLabelClass (c : Char) : (!outsideLabelClass c) = isLeafChar c := by
  unfold outsideLabelClass isLeafChar Char.isAlphanum Char.isAlpha Char.isUpper Char.isLower
  rw [Bool.not_not, Char.isDigit, Bool.decide_and]
  rfl

/-- `clean_and_split_string` removes the same characters. -/
theorem strippedClass_of {p : Char → Bool}
    (hp : (['*', '[', ']', '{', '}', ',', '@', '-', ' ', '(', ')'].all fun c => !p c) = true)
    (c : Char) (hc : p c = true) : (!strippedClass c) = true := by
  by_contra hclass
  rw [Bool.not_eq_true, Bool.not_eq_false', strippedClass] at hclass
  simp only [Bool.or_eq_true, beq_iff_eq] at hclass
  rcases hclass with (((((((((rfl | rfl) | rfl) | rfl) | rfl) | rfl) | rfl) | rfl) | rfl) | rfl)
    | rfl <;> simp [hc] at hp

/-- The tokens of the database, for a list of separators among those of a name. -/
theorem filter_map_regexpRemove (p : Char → Bool) (t : Text) :
    (((t.splitOnP p).map (regexpRemove outsideLabelClass)).filter fun t => !t.isEmpty) =
      pieces p isLeafChar t := by
  have hclass : regexpRemove outsideLabelClass = List.filter isLeafChar :=
    funext fun t => congrArg (fun q => List.filter q t) (funext not_outsideLabelClass)
  rw [hclass]
  rfl

theorem pieces_regexpRemove {p : Char → Bool} (t : Text)
    (hp : (['*', '[', ']', '{', '}', ',', '@', '-', ' ', '(', ')'].all fun c => !p c) = true) :
    pieces p isLeafChar (regexpRemove strippedClass t) = pieces p isLeafChar t :=
  pieces_filter (strippedClass_of hp) (strippedClass_of (by decide))

/-- The dots are replaced before the split or after it, in the name or in what is left. -/
theorem regexpRemove_replaceDots (t : Text) :
    replaceDots false (regexpRemove strippedClass t) =
      regexpRemove strippedClass (replaceDots false t) := by
  show (t.filter _).map _ = (t.map _).filter _
  rw [List.filter_map]
  refine congrArg (List.map _) (List.filter_congr fun c _ => ?_)
  rw [Function.comp_apply]
  split
  · next hdot =>
    obtain rfl := beq_iff_eq.mp hdot
    rfl
  · rfl

/-- The database casts the text of the tokens. -/
theorem symbolNameToLtreeText_eq (name : Text) (dotIsSep : Bool) :
    symbolNameToLtreeText name dotIsSep =
      joinLabels (symbolNameToPath (replaceDots dotIsSep name)) := by
  have htokens : ((if dotIsSep then (regexpRemove strippedClass name).splitOnP isSeparator
      else (replaceDots false (regexpRemove strippedClass name)).splitOnP
        fun c => c == '/' || c == ':').map (regexpRemove outsideLabelClass)).filter
          (fun t => !t.isEmpty) = nameTokens dotIsSep name := by
    rw [nameTokens, normalizeSymbolTokens_eq_pieces]
    cases dotIsSep with
    | true =>
      rw [if_pos rfl, filter_map_regexpRemove, pieces_regexpRemove name (by decide)]
      rfl
    | false =>
      rw [if_neg (by decide), filter_map_regexpRemove, regexpRemove_replaceDots,
        pieces_regexpRemove _ (by decide)]
      refine pieces_congr fun c hc => ?_
      obtain ⟨d, -, rfl⟩ := List.mem_map.mp hc
      split
      · rfl
      · next hdot =>
        rw [isSeparator, Bool.eq_false_iff.mpr hdot, Bool.false_or]
  have htext : symbolNameToLtreeText name dotIsSep =
      ((arrayAgg (nameTokens dotIsSep name)).map joinLabels).getD unknownLabel :=
    congrArg (fun ts => ((arrayAgg ts).map joinLabels).getD unknownLabel) htokens
  rw [htext, symbolNameToPath_eq]
  cases nameTokens dotIsSep name <;> rfl

/-- The text of a path is cast to the path. -/
theorem castLtree_joinLabels (accepts : Ltree → Bool) {path : Ltree} (h : PathConstructed path) :
    castLtree accepts (joinLabels path) = if accepts path then some path else none := by
  have hsplit : (joinLabels path).splitOn '.' = path :=
    List.splitOn_intercalate '.' (fun l hl => (h.2 l hl).not_mem_of (by decide)) h.1
  rw [castLtree, hsplit]

/-- The last label of a path. -/
theorem joinLabels_drop {path : Ltree} (h : path ≠ []) :
    joinLabels (path.drop (path.length - 1)) = path.getLastD unknownLabel := by
  rw [List.drop_length_sub_one h, joinLabels, List.intercalate_singleton,
    List.getLastD_eq_getLast?, List.getLast?_eq_some_getLast h]
  rfl

/-- **The trigger stores the path and the leaf of `symbol_path_and_leaf`**, or fails where
the cast does; the path is made of labels, and it is read back off its text, by a name
that separates by dots. -/
theorem setSymbolPath_eq (accepts : Ltree → Bool) (name : Text) (symbolType : ℤ) :
    setSymbolPath accepts symbolTypesTable name symbolType =
        (if accepts (symbolPathAndLeaf name symbolType).1
          then some (symbolPathAndLeaf name symbolType) else none) ∧
      PathConstructed (symbolPathAndLeaf name symbolType).1 ∧
      symbolNameToPath (joinLabels (symbolPathAndLeaf name symbolType).1) =
        (symbolPathAndLeaf name symbolType).1 ∧
      ((symbolPathAndLeaf (joinLabels (symbolPathAndLeaf name symbolType).1) symbolType).1 =
          (symbolPathAndLeaf name symbolType).1 ↔
        dotIsSeparator symbolType = true ∨ (symbolPathAndLeaf name symbolType).1.length = 1) := by
  have hpath := pathConstructed_symbolPathAndLeaf name symbolType
  refine ⟨?_, hpath, symbolNameToPath_joinLabels hpath, ?_⟩
  · rw [setSymbolPath, dotIsSeparator_symbolTypesTable, symbolNameToLtree,
      symbolNameToLtreeText_eq, ← symbolPathAndLeaf_fst, castLtree_joinLabels accepts hpath]
    by_cases haccepts : accepts (symbolPathAndLeaf name symbolType).1 = true
    · rw [if_pos haccepts, if_pos haccepts]
      exact congrArg (fun leaf => some ((symbolPathAndLeaf name symbolType).1, leaf))
        (joinLabels_drop hpath.1)
    · rw [if_neg haccepts, if_neg haccepts]
      rfl
  · generalize (symbolPathAndLeaf name symbolType).1 = path at hpath
    rw [symbolPathAndLeaf_fst]
    cases hdot : dotIsSeparator symbolType with
    | true =>
      simpa [replaceDots] using symbolNameToPath_joinLabels hpath
    | false =>
      rw [symbolNameToPath_replaceDots_joinLabels hpath]
      simp

/-- The text of the path `src.main_go`, taken for the name of a file, is one label. -/
theorem symbolPathAndLeaf_not_idempotent :
    ¬ ∀ (name : Text) (symbolType : ℤ),
      (symbolPathAndLeaf (joinLabels (symbolPathAndLeaf name symbolType).1) symbolType).1 =
        (symbolPathAndLeaf name symbolType).1 := by
  intro h
  have := h "src/main.go".toList 2
  revert this
  decide +kernel

end Askl
