import Askl.Index.Filters
import Askl.Library.Leftmost
import Askl.Query.Loc
import Askl.Query.NamePattern
import Mathlib.Data.List.Sort
import Mathlib.Data.Prod.Lex

/-!
# Search

`search` looks for a text in the contents of a project.  The database takes the occurrences in a
file from left to right, as far as a cap, which is applied before the boundaries of words are
looked at; what is left is sorted and cut.

## Main definitions

* `SearchSelector`, `SearchSelector.new` — the arguments of the verb.
* `findSubstrByteRanges` — the occurrences in a text, as the database's function finds them.
* `SearchDatabase`, `preFilter`, `wordBoundary`, `searchFileRows` — the query.
* `searchContentMatchesOn` — its outcome under a limit.

## Main results

* `findSubstrByteRanges_eq` — **the function takes the leftmost occurrences that do not overlap,
  as far as its cap.**
* `preFilter_of_infix` — the condition for the indexes holds where the text occurs, unless the text
  search decides it.
* `mem_searchFileRows`, `mem_searchedFiles` — the rows of a file, and the files.
* `nodup_searchedFiles` — an object is searched once.
-/

namespace Askl

open Keyed Leftmost Utf8

/-! ### Arguments -/

/-- The characters that `trim` takes away. -/
def isWhiteSpace (c : Char) : Bool :=
  let code := c.toNat
  (0x9 ≤ code && code ≤ 0xD) || code == 0x20 || code == 0x85 || code == 0xA0 || code == 0x1680 ||
    (0x2000 ≤ code && code ≤ 0x200A) || code == 0x2028 || code == 0x2029 || code == 0x202F ||
    code == 0x205F || code == 0x3000

/-- `SearchSelector`. -/
@[ext] structure SearchSelector where
  query : Text
  caseSensitive : Bool
  wholeWord : Bool
  limit : ℕ
  three_le : 3 ≤ query.length
  limit_pos : 0 < limit
  limit_lt : limit < 2 ^ 64

instance : DecidableEq SearchSelector := fun _ _ => decidable_of_iff _ SearchSelector.ext_iff.symm

/-- `DEFAULT_LIMIT`. -/
def defaultLimit : ℕ := 500

/-- The names of the named arguments. -/
def searchAllowed : List Text := ["case".toList, "whole_word".toList, "limit".toList]

/-- `named_plain`. -/
def namedPlain (named : NamedArgs) (key : String) : Except String (Option Text) :=
  match named.lookup key.toList with
  | none => .ok none
  | some v => (Value.asPlain v).map some

/-- The case mode: by default a pattern with an upper-case letter is case-sensitive. -/
def parseCase (isUppercase : Char → Bool) (query : Text) : Option Text → Except String Bool
  | none => .ok (smartCaseSensitive isUppercase query)
  | some mode =>
    if mode = "smart".toList then .ok (smartCaseSensitive isUppercase query)
    else if mode = "sensitive".toList then .ok true
    else if mode = "insensitive".toList then .ok false
    else .error "search: case must be \"smart\", \"sensitive\", or \"insensitive\""

/-- Whether only whole words are looked for. -/
def parseWholeWord : Option Text → Except String Bool
  | none => .ok false
  | some flag =>
    if flag = "false".toList then .ok false
    else if flag = "true".toList then .ok true
    else .error "search: whole_word must be \"true\" or \"false\""

/-- The limit of a project's matches. -/
def parseLimit : Option Value → Except String {n : ℕ // 0 < n ∧ n < 2 ^ 64}
  | none => .ok ⟨defaultLimit, by decide⟩
  | some v => do
    let digits ← v.asPlain
    match parseUsize digits with
    | none => .error "search: limit must be a positive integer"
    | some n =>
      if h : 0 < n.val then .ok ⟨n.val, h, n.2⟩ else .error "search: limit must be >= 1"

/-- `SearchSelector::new`.  The messages are without the values they show. -/
def SearchSelector.new (isUppercase : Char → Bool) (positional : List Value) (named : NamedArgs) :
    Except String SearchSelector :=
  match positional with
  | [v] => do
    let query ← v.asPlain
    if query.all isWhiteSpace then .error "search: query must be non-empty"
    else if h : query.length < 3 then .error "search: query must be at least 3 characters"
    else do
      let caseSensitive ← parseCase isUppercase query (← namedPlain named "case")
      let wholeWord ← parseWholeWord (← namedPlain named "whole_word")
      let limit ← parseLimit (named.lookup "limit".toList)
      if named.all fun p => searchAllowed.contains p.1 then
        pure ⟨query, caseSensitive, wholeWord, limit.val, Nat.le_of_not_lt h, limit.2.1, limit.2.2⟩
      else .error "search: unknown argument"
  | _ => .error "search requires exactly one positional argument: query"

/-- What is handed to the populate. -/
structure SearchInputs where
  query : Text
  caseSensitive : Bool
  wholeWord : Bool
  limit : ℕ
  filter : CompositeFilter

/-- The inputs of a selector under the filters of its command. -/
def SearchSelector.inputs (sel : SearchSelector) (filter : CompositeFilter) : SearchInputs :=
  ⟨sel.query, sel.caseSensitive, sel.wholeWord, sel.limit, filter⟩

/-! ### The function of the database -/

/-- `octet_length`. -/
def octetLength (t : Text) : ℕ := (utf8 t).length

/-- `position`: where a text begins in another, counted from 1, or 0. -/
def position (needle t : Text) : ℕ :=
  ((List.range (t.length + 1)).find? fun p => decide (needle <+: t.drop p)).elim 0 (· + 1)

/-- A row of `find_substr_byte_ranges`; characters are counted from 1. -/
structure SubstrRange where
  startByte : ℕ
  endByte : ℕ
  startChar : ℕ
  deriving DecidableEq, Repr

/-- The loop of `find_substr_byte_ranges`, on the characters that are left.  Every turn consumes
one, so that there are no more turns than characters. -/
def findSubstrFrom (needle : Text) (maxN : ℤ) : ℕ → Text → ℕ → ℕ → ℕ → List SubstrRange
  | 0, _, _, _, _ => []
  | turns + 1, rest, curChar, curByte, emitted =>
    if rest.isEmpty || decide (maxN ≤ emitted) then []
    else match position needle rest with
      | 0 => []
      | found + 1 =>
        let startByte := curByte + octetLength (rest.take found)
        let endByte := startByte + octetLength ((rest.drop found).take needle.length)
        ⟨startByte, endByte, curChar + found⟩ ::
          findSubstrFrom needle maxN turns (rest.drop (found + needle.length))
            (curChar + found + needle.length) endByte (emitted + 1)

/-- `find_substr_byte_ranges`. -/
def findSubstrByteRanges (haystack needle : Text) (maxN : ℤ) : List SubstrRange :=
  if needle.isEmpty then [] else findSubstrFrom needle maxN haystack.length haystack 1 0 0

@[simp] theorem octetLength_nil : octetLength [] = 0 := by
  rw [octetLength, utf8_nil, List.length_nil]

theorem octetLength_append (a b : Text) :
    octetLength (a ++ b) = octetLength a + octetLength b := by
  rw [octetLength, octetLength, octetLength, utf8_append, List.length_append]

theorem octetLength_take_add (t : Text) (i j : ℕ) :
    octetLength (t.take (i + j)) = octetLength (t.take i) + octetLength ((t.drop i).take j) := by
  rw [List.take_add, octetLength_append]

theorem position_eq_zero {w t : Text} (h : position w t = 0) {p : ℕ} (hp : p ≤ t.length) :
    ¬w <+: t.drop p := by
  rw [position] at h
  cases hfind : (List.range (t.length + 1)).find? fun p => decide (w <+: t.drop p) with
  | none =>
    rw [List.find?_eq_none] at hfind
    simpa using hfind p (List.mem_range.mpr (Nat.lt_succ_of_le hp))
  | some q =>
    rw [hfind] at h
    cases h

theorem position_eq_succ {w t : Text} {found : ℕ} (h : position w t = found + 1) :
    w <+: t.drop found ∧ ∀ q < found, ¬w <+: t.drop q := by
  rw [position] at h
  cases hfind : (List.range (t.length + 1)).find? fun p => decide (w <+: t.drop p) with
  | none =>
    rw [hfind] at h
    cases h
  | some q =>
    rw [hfind] at h
    obtain rfl : q = found := Nat.succ.inj h
    obtain ⟨hq, -, hleast⟩ := List.find?_range_eq_some.mp hfind
    exact ⟨of_decide_eq_true hq, fun r hr => by simpa using hleast r hr⟩

/-- The row of an occurrence. -/
def substrRange (t w : Text) (p : ℕ) : SubstrRange :=
  ⟨octetLength (t.take p), octetLength (t.take (p + w.length)), p + 1⟩

/-- Nothing is taken when nothing is found. -/
theorem leftmost_of_position_zero {t w : Text} (hw : w ≠ []) {k : ℕ}
    (h : position w (t.drop k) = 0) : leftmost w.length k (occurrences w t) = [] := by
  refine leftmost_eq_nil fun q hq => ?_
  by_contra hle
  have hlen := add_length_le hw hq
  refine position_eq_zero h (show q - k ≤ _ by rw [List.length_drop]; omega) ?_
  rw [List.drop_drop, show k + (q - k) = q by omega]
  exact (mem_occurrences hw).mp hq

/-- What is found is taken next. -/
theorem leftmost_of_position_succ {t w : Text} (hw : w ≠ []) {k found : ℕ}
    (h : position w (t.drop k) = found + 1) :
    leftmost w.length k (occurrences w t) =
      (k + found) :: leftmost w.length (k + found + w.length) (occurrences w t) := by
  obtain ⟨hhere, hleast⟩ := position_eq_succ h
  rw [List.drop_drop] at hhere
  refine leftmost_eq_cons (List.length_pos_of_ne_nil hw) (occurrences_pairwise w t)
    ((mem_occurrences hw).mpr hhere) (by omega) fun q hq hle => ?_
  by_contra hlt
  refine hleast (q - k) (by omega) ?_
  rw [List.drop_drop, show k + (q - k) = q by omega]
  exact (mem_occurrences hw).mp hq

/-- The loop, from a position on: what is left of the cap is taken. -/
theorem findSubstrFrom_eq {t w : Text} (hw : w ≠ []) (maxN : ℤ) {turns k e : ℕ}
    (hturns : t.length ≤ k + turns) :
    findSubstrFrom w maxN turns (t.drop k) (k + 1) (octetLength (t.take k)) e =
      ((leftmost w.length k (occurrences w t)).take (maxN - e).toNat).map (substrRange t w) := by
  have hpos := List.length_pos_of_ne_nil hw
  have hend : ∀ k, t.length ≤ k → leftmost w.length k (occurrences w t) = [] := fun k hle =>
    leftmost_eq_nil fun q hq => by
      have := add_length_le hw hq
      omega
  induction turns generalizing k e with
  | zero =>
    rw [hend k hturns, List.take_nil]
    rfl
  | succ turns ih =>
    rw [findSubstrFrom]
    split
    · next hstop =>
      rw [Bool.or_eq_true, List.isEmpty_iff, decide_eq_true_iff] at hstop
      rcases hstop with hnil | hmax
      · rw [hend k (List.drop_eq_nil_iff.mp hnil), List.take_nil]
        rfl
      · rw [Int.toNat_of_nonpos (by omega), List.take_zero]
        rfl
    · next hgo =>
      rw [Bool.or_eq_true, List.isEmpty_iff, decide_eq_true_iff, not_or] at hgo
      obtain ⟨left, hleft⟩ : ∃ left, (maxN - e).toNat = left + 1 :=
        Nat.exists_eq_succ_of_ne_zero (by omega)
      split
      · next hzero =>
        rw [leftmost_of_position_zero hw hzero, List.take_nil]
        rfl
      · next found hfound =>
        have hstart : octetLength (t.take k) + octetLength ((t.drop k).take found) =
            octetLength (t.take (k + found)) := (octetLength_take_add t k found).symm
        have hword : octetLength (t.take (k + found)) +
            octetLength (((t.drop k).drop found).take w.length) =
              octetLength (t.take (k + found + w.length)) := by
          rw [List.drop_drop, octetLength_take_add t (k + found) w.length]
        have htail := ih (k := k + found + w.length) (e := e + 1) (by omega)
        show SubstrRange.mk (octetLength (t.take k) + octetLength ((t.drop k).take found))
            (octetLength (t.take k) + octetLength ((t.drop k).take found) +
              octetLength (((t.drop k).drop found).take w.length)) (k + 1 + found) ::
          findSubstrFrom w maxN turns ((t.drop k).drop (found + w.length))
            (k + 1 + found + w.length) (octetLength (t.take k) +
              octetLength ((t.drop k).take found) +
              octetLength (((t.drop k).drop found).take w.length)) (e + 1) = _
        rw [leftmost_of_position_succ hw hfound, hleft, List.take_succ_cons, List.map_cons,
          hstart, hword, List.drop_drop,
          show k + (found + w.length) = k + found + w.length by omega,
          show k + 1 + found + w.length = k + found + w.length + 1 by omega, htail,
          show (maxN - (e + 1 : ℕ)).toNat = left by omega]
        exact congrArg (· :: _) (by rw [substrRange, show k + 1 + found = k + found + 1 by omega])

/-- **The function takes the leftmost occurrences that do not overlap, as far as its cap.** -/
theorem findSubstrByteRanges_eq {w : Text} (hw : w ≠ []) (t : Text) (maxN : ℤ) :
    findSubstrByteRanges t w maxN =
      ((leftmost w.length 0 (occurrences w t)).take maxN.toNat).map (substrRange t w) := by
  rw [findSubstrByteRanges, if_neg (by rwa [List.isEmpty_iff])]
  have h := findSubstrFrom_eq (t := t) hw maxN (show t.length ≤ 0 + t.length by omega) (e := 0)
  simpa using h

/-- `is_word_char`. -/
def isWordChar (c : Text) : Bool :=
  match c with
  | [] => false
  | c :: _ =>
    let code := c.toNat
    (48 ≤ code && code ≤ 57) || (65 ≤ code && code ≤ 90) || (97 ≤ code && code ≤ 122) || code == 95

/-- `substring(t from start for 1)`. -/
def substringOne (t : Text) (start : ℕ) : Text := (t.drop (start - 1)).take 1

/-- `safe_convert_from`: a text, unless the bytes are none or have a NUL. -/
def safeConvertFrom (content : Bytes) : Option Text :=
  ((String.fromUTF8? ⟨content.toArray⟩).map String.toList).filter fun t => !t.contains '\x00'

/-- A content that is a text is the text, encoded. -/
theorem utf8_of_safeConvertFrom {content : Bytes} {t : Text} (h : safeConvertFrom content = some t) :
    utf8 t = content := by
  rw [safeConvertFrom, Option.filter_eq_some_iff, Option.map_eq_some_iff] at h
  obtain ⟨⟨s, hs, rfl⟩, -⟩ := h
  rw [String.fromUTF8?] at hs
  split at hs
  · rw [utf8, String.ofList_toList, toList_eq_data, ← Option.some.inj hs]
    rfl
  · cases hs

/-- A text without a NUL is read back. -/
theorem safeConvertFrom_utf8 {t : Text} (h : '\x00' ∉ t) : safeConvertFrom (utf8 t) = some t := by
  have hbytes : (⟨(utf8 t).toArray⟩ : ByteArray) = (String.ofList t).toByteArray := by
    rw [utf8, toList_eq_data]
    rfl
  have hread : String.fromUTF8? ⟨(utf8 t).toArray⟩ = some (String.ofList t) := by
    rw [hbytes, String.fromUTF8?, dif_pos (String.ofList t).isValidUTF8]
    rfl
  rw [safeConvertFrom, hread, Option.map_some, String.toList_ofList, Option.filter_eq_some_iff]
  exact ⟨rfl, by simpa using h⟩

theorem not_mem_of_safeConvertFrom {content : Bytes} {t : Text}
    (h : safeConvertFrom content = some t) : '\x00' ∉ t := by
  rw [safeConvertFrom, Option.filter_eq_some_iff] at h
  simpa using h.2

/-! ### The query -/

/-- The lower-case mapping of a locale: the metacharacters of `LIKE` stay, and nothing else becomes
one. -/
structure Locale where
  lower : Char → Char
  lower_eq_iff : ∀ m ∈ ['\\', '%', '_'], ∀ c, lower c = m ↔ c = m

/-- The tables that a search reads, the locale of the database, and its text search: whether a
content's `tsvector` has the phrase of a query. -/
structure SearchDatabase where
  store : Store
  locale : Locale
  textSearch : Text → Text → Bool
  objects_nodup : (store.objects.map (·.id)).Nodup
  contents_nodup : (store.contentStore.map (·.contentHash)).Nodup

/-- `SearchMatchRow`. -/
structure SearchMatchRow where
  objectId : ℤ
  projectId : ℤ
  startByte : ℕ
  endByte : ℕ
  deriving DecidableEq, Repr

/-- A file that is searched: an object, and its content as a text. -/
structure SearchedFile where
  object : ObjectRow
  text : Text
  deriving DecidableEq

/-- How a search fails: the server refuses a text with a NUL, and a limit below zero. -/
inductive SearchError where
  | invalidText
  | negativeLimit
  deriving DecidableEq, Repr

/-- The message, without what the server adds to it. -/
def SearchError.message : SearchError → String
  | invalidText | negativeLimit => "Failed to run search content query"

/-- `make_like_pattern`. -/
def makeLikePattern (query : Text) : Text := '%' :: (escapeLike query ++ ['%'])

/-- `objects_expr`: only the filter of a project constrains objects. -/
def objectsExpr (store : Store) : FilterLeaf → Option (ObjectRow → Bool)
  | .projectFilter name => some fun o =>
    ((store.projects.filter (·.projectName == name)).map (·.id)).contains o.row.projectId
  | _ => none

/-- `compose_objects`. -/
def composeObjects (store : Store) : CompositeFilter → Option (ObjectRow → Bool) :=
  CompositeFilter.compose (objectsExpr store)

section Query

variable (db : SearchDatabase) (inputs : SearchInputs)

/-- The text that is looked in: in the case-insensitive mode, a lower-cased copy. -/
def haystack (t : Text) : Text := if inputs.caseSensitive then t else t.map db.locale.lower

/-- The text that is looked for. -/
def needle : Text :=
  if inputs.caseSensitive then inputs.query else inputs.query.map db.locale.lower

/-- The condition that the indexes are for. -/
def preFilter (t : Text) : Bool :=
  match inputs.wholeWord, inputs.caseSensitive with
  | false, false => ilike db.locale.lower (makeLikePattern inputs.query) t
  | false, true => like (makeLikePattern inputs.query) t
  | true, false => db.textSearch t inputs.query
  | true, true => like (makeLikePattern inputs.query) t

/-- The boundaries of a whole word, in the content as it is. -/
def wordBoundary (t : Text) (startChar : ℕ) : Bool :=
  !inputs.wholeWord ||
    ((startChar == 1 || !isWordChar (substringOne t (startChar - 1))) &&
      (decide (t.length < startChar + inputs.query.length) ||
        !isWordChar (substringOne t (startChar + inputs.query.length))))

/-- The rows of a file, as far as the cap. -/
def searchFileRows (cap : ℤ) (f : SearchedFile) : List SearchMatchRow :=
  if preFilter db inputs f.text then
    ((findSubstrByteRanges (haystack db inputs f.text) (needle db inputs) cap).filter fun r =>
      wordBoundary inputs f.text r.startChar).map fun r =>
        ⟨f.object.id, f.object.row.projectId, r.startByte, r.endByte⟩
  else []

/-- The project, if the filter lets it through. -/
def searchProjectIds (projectId : ℤ) : List ℤ :=
  match composeObjects db.store inputs.filter with
  | none => [projectId]
  | some e =>
    if db.store.objects.any fun o => e o && o.row.projectId == projectId then [projectId] else []

/-- The files of the project on the visible layers whose content is a text. -/
def searchedFiles (projectId : ℤ) (visibleLayers : List ℤ) (ephBranch : Bool) :
    List SearchedFile :=
  (join db.store.contentStore db.store.objects fun c o =>
    o.row.contentHash == c.contentHash).filterMap fun r =>
      if (searchProjectIds db inputs projectId).contains r.2.row.projectId &&
          visibleLayers.contains r.2.row.layer && (!ephBranch || decide (r.2.row.layer < 0)) then
        (safeConvertFrom r.1.content).map (⟨r.2, ·⟩)
      else none

/-- What the rows are ordered by. -/
def SearchMatchRow.key (r : SearchMatchRow) : Lex (ℤ × ℕ) := toLex (r.objectId, r.startByte)

/-- `limit as i32`, and one more if there is one. -/
def limitPlusOne (limit : ℕ) : ℤ := min (Int.bmod limit (2 ^ 32) + 1) (2 ^ 31 - 1)

/-- `search_content_matches_on`: the rows of the files, in order, as far as the limit, and whether
there are more. -/
def searchContentMatchesOn (projectId : ℤ) (visibleLayers : List ℤ) (ephBranch : Bool) :
    Except SearchError (List SearchMatchRow × Bool) :=
  let cap := limitPlusOne inputs.limit
  if inputs.query.contains '\x00' then .error .invalidText
  else if cap < 0 then .error .negativeLimit
  else
    let rows := (((searchedFiles db inputs projectId visibleLayers ephBranch).flatMap
      (searchFileRows db inputs cap)).insertionSort fun r r' => r.key ≤ r'.key).take cap.toNat
    .ok (rows.take inputs.limit, decide (inputs.limit < rows.length))

end Query

/-! ### The condition for the indexes -/

theorem like_escapeLike_append (w p : Text) (t : Text) :
    like (escapeLike w ++ p) t = true ↔ ∃ rest, t = w ++ rest ∧ like p rest = true := by
  induction w generalizing t with
  | nil => exact ⟨fun h => ⟨t, rfl, h⟩, fun ⟨_, ht, h⟩ => ht ▸ h⟩
  | cons c w ih =>
    have hstep : ∀ t, like (escapeLike (c :: w) ++ p) t = match t with
        | [] => false
        | d :: t => c == d && like (escapeLike w ++ p) t := by
      intro t
      rw [escapeLike, List.flatMap_cons]
      split
      · cases t with
        | nil => exact like.eq_5 c _
        | cons d t => exact like.eq_6 c _ d t
      · next hplain =>
        simp only [not_or] at hplain
        have hescape : ∀ a q, c = '\\' → escapeLike w ++ p = a :: q → False := fun _ _ h _ =>
          hplain.1 h
        cases t with
        | nil => exact like.eq_7 c _ hplain.2.1 hplain.2.2 hescape
        | cons d t => exact like.eq_8 c _ d t hplain.2.1 hplain.2.2 hescape
    rw [hstep]
    cases t with
    | nil => simp
    | cons d t =>
      simp only [Bool.and_eq_true, beq_iff_eq, ih, List.cons_append, List.cons.injEq]
      constructor
      · rintro ⟨rfl, rest, ht, h⟩
        exact ⟨rest, ⟨rfl, ht⟩, h⟩
      · rintro ⟨rest, ⟨rfl, ht⟩, h⟩
        exact ⟨rfl, rest, ht, h⟩

/-- The pattern of a query is the query, somewhere. -/
theorem like_makeLikePattern (w t : Text) : like (makeLikePattern w) t = true ↔ w <:+: t := by
  have hrest : ∀ t, like ['%'] t = true := by
    intro t
    rw [like, List.any_eq_true]
    exact ⟨[], (List.mem_tails _ _).mpr (List.nil_suffix), by rw [like]; rfl⟩
  rw [makeLikePattern, like, List.any_eq_true]
  simp only [List.mem_tails, like_escapeLike_append, hrest, and_true]
  constructor
  · rintro ⟨s, ⟨before, hs⟩, after, rfl⟩
    exact ⟨before, after, by rw [List.append_assoc, hs]⟩
  · rintro ⟨before, after, rfl⟩
    exact ⟨w ++ after, ⟨before, (List.append_assoc ..).symm⟩, after, rfl⟩

/-- Lower-casing escapes nothing more and nothing less. -/
theorem Locale.map_escapeLike (l : Locale) (w : Text) :
    (escapeLike w).map l.lower = escapeLike (w.map l.lower) := by
  have hkeep : l.lower '\\' = '\\' := (l.lower_eq_iff '\\' (by simp) '\\').mpr rfl
  rw [escapeLike, escapeLike, List.map_flatMap, List.flatMap_map]
  refine List.flatMap_congr fun c _ => ?_
  simp only [l.lower_eq_iff '\\' (by simp), l.lower_eq_iff '%' (by simp),
    l.lower_eq_iff '_' (by simp)]
  split
  · rw [List.map_cons, List.map_cons, List.map_nil, hkeep]
  · rfl

/-- Lower-casing the pattern of a query gives the pattern of the lower-cased query. -/
theorem Locale.map_makeLikePattern (l : Locale) (w : Text) :
    (makeLikePattern w).map l.lower = makeLikePattern (w.map l.lower) := by
  have hkeep : l.lower '%' = '%' := (l.lower_eq_iff '%' (by simp) '%').mpr rfl
  rw [makeLikePattern, makeLikePattern, List.map_cons, List.map_append, List.map_cons,
    List.map_nil, l.map_escapeLike, hkeep]

section Rows

variable {db : SearchDatabase} {inputs : SearchInputs}

/-- The condition of a search that the text search does not decide: the text occurs. -/
theorem preFilter_of_infix (h : inputs.wholeWord = true → inputs.caseSensitive = true) {t : Text}
    (hw : needle db inputs <:+: haystack db inputs t) : preFilter db inputs t = true := by
  rw [preFilter]
  rw [needle, haystack] at hw
  cases hword : inputs.wholeWord <;> cases hcase : inputs.caseSensitive <;>
    simp only [hword, hcase, if_true, Bool.false_eq_true, if_false, forall_true_left] at h hw ⊢
  · rw [ilike, db.locale.map_makeLikePattern]
    exact (like_makeLikePattern _ _).mpr hw
  · exact (like_makeLikePattern _ _).mpr hw
  · exact (like_makeLikePattern _ _).mpr hw

/-! ### Rows -/

variable (db inputs) in
/-- The row of an occurrence in a file. -/
def matchRow (f : SearchedFile) (p : ℕ) : SearchMatchRow :=
  ⟨f.object.id, f.object.row.projectId, octetLength ((haystack db inputs f.text).take p),
    octetLength ((haystack db inputs f.text).take (p + (needle db inputs).length))⟩

variable (db inputs) in
/-- The occurrences in a file. -/
def fileOccurrences (f : SearchedFile) : List ℕ :=
  occurrences (needle db inputs) (haystack db inputs f.text)

theorem searchFileRows_eq (hw : needle db inputs ≠ []) (cap : ℤ) (f : SearchedFile) :
    searchFileRows db inputs cap f =
      if preFilter db inputs f.text then
        (((leftmost (needle db inputs).length 0 (fileOccurrences db inputs f)).take
          cap.toNat).filter fun p => wordBoundary inputs f.text (p + 1)).map (matchRow db inputs f)
      else [] := by
  rw [searchFileRows, findSubstrByteRanges_eq hw, List.filter_map, List.map_map]
  rfl

theorem mem_searchFileRows (hw : needle db inputs ≠ []) {cap : ℤ} {f : SearchedFile}
    {r : SearchMatchRow} :
    r ∈ searchFileRows db inputs cap f ↔
      preFilter db inputs f.text = true ∧ ∃ p ∈ (leftmost (needle db inputs).length 0
        (fileOccurrences db inputs f)).take cap.toNat,
          wordBoundary inputs f.text (p + 1) = true ∧ matchRow db inputs f p = r := by
  rw [searchFileRows_eq hw]
  split
  · next hpre =>
    simp only [hpre, List.mem_map, List.mem_filter, true_and, and_assoc]
  · next hpre =>
    exact iff_of_false List.not_mem_nil fun h => hpre h.1

theorem octetLength_pos {t : Text} (h : t ≠ []) : 0 < octetLength t := by
  refine Nat.pos_of_ne_zero fun hzero => h (utf8_injective ?_)
  rw [List.eq_nil_of_length_eq_zero hzero, utf8_nil]

theorem octetLength_take_lt {t : Text} {p q : ℕ} (hlt : p < q) (hp : p < t.length) :
    octetLength (t.take p) < octetLength (t.take q) := by
  obtain ⟨j, rfl⟩ := Nat.exists_eq_add_of_lt hlt
  rw [show p + j + 1 = p + (j + 1) by omega, octetLength_take_add]
  have hdrop : (t.drop p).take (j + 1) ≠ [] := by
    rw [List.drop_eq_getElem_cons hp, List.take_succ_cons]
    exact List.cons_ne_nil _ _
  have := octetLength_pos hdrop
  omega

/-- Rows of one file are ordered as their occurrences. -/
theorem matchRow_key_lt (hw : needle db inputs ≠ []) {f : SearchedFile} {p q : ℕ}
    (hq : q ∈ fileOccurrences db inputs f) (hlt : p < q) :
    (matchRow db inputs f p).key < (matchRow db inputs f q).key := by
  rw [SearchMatchRow.key, SearchMatchRow.key, Prod.Lex.toLex_lt_toLex]
  have hlen := add_length_le hw hq
  exact .inr ⟨rfl, octetLength_take_lt hlt (by omega)⟩

/-- The rows of a file are in order. -/
theorem searchFileRows_pairwise (hw : needle db inputs ≠ []) (cap : ℤ) (f : SearchedFile) :
    (searchFileRows db inputs cap f).Pairwise fun r r' => r.key < r'.key := by
  rw [searchFileRows_eq hw]
  split
  · rw [List.pairwise_map]
    have hsub : ((leftmost (needle db inputs).length 0 (fileOccurrences db inputs f)).take
        cap.toNat |>.filter fun p => wordBoundary inputs f.text (p + 1)).Sublist
          (fileOccurrences db inputs f) :=
      (List.filter_sublist.trans (List.take_sublist _ _)).trans (leftmost_sublist _ _ _)
    refine List.Pairwise.imp_of_mem (fun {p q} _ hq hlt => ?_)
      ((occurrences_pairwise _ _).sublist hsub)
    exact matchRow_key_lt hw (hsub.subset hq) hlt
  · exact .nil

/-! ### Files -/

variable {projectId : ℤ} {visibleLayers : List ℤ} {ephBranch : Bool}

theorem mem_searchedFiles {f : SearchedFile} :
    f ∈ searchedFiles db inputs projectId visibleLayers ephBranch ↔
      ∃ c ∈ db.store.contentStore, f.object ∈ db.store.objects ∧
        f.object.row.contentHash = c.contentHash ∧
        ((searchProjectIds db inputs projectId).contains f.object.row.projectId &&
          visibleLayers.contains f.object.row.layer &&
            (!ephBranch || decide (f.object.row.layer < 0))) = true ∧
        safeConvertFrom c.content = some f.text := by
  rw [searchedFiles, List.mem_filterMap]
  constructor
  · rintro ⟨⟨c, o⟩, hjoin, hf⟩
    obtain ⟨hc, ho, hon⟩ := mem_join.mp hjoin
    split at hf
    · next hscope =>
      obtain ⟨t, ht, rfl⟩ := Option.map_eq_some_iff.mp hf
      exact ⟨c, hc, ho, beq_iff_eq.mp hon, hscope, ht⟩
    · cases hf
  · rintro ⟨c, hc, ho, hon, hscope, ht⟩
    refine ⟨(c, f.object), mem_join.mpr ⟨hc, ho, beq_iff_eq.mpr hon⟩, ?_⟩
    rw [if_pos hscope, ht]
    rfl

/-- What a search returns are rows of the files. -/
theorem mem_of_searchContentMatchesOn {rows : List SearchMatchRow} {truncated : Bool}
    (h : searchContentMatchesOn db inputs projectId visibleLayers ephBranch =
      .ok (rows, truncated)) {row : SearchMatchRow} (hrow : row ∈ rows) :
    ∃ f ∈ searchedFiles db inputs projectId visibleLayers ephBranch,
      row ∈ searchFileRows db inputs (limitPlusOne inputs.limit) f := by
  rw [searchContentMatchesOn] at h
  split at h
  · cases h
  · split at h
    · cases h
    · obtain ⟨rfl, -⟩ := Prod.mk.inj (Except.ok.inj h)
      have hmem := List.mem_of_mem_take (List.mem_of_mem_take hrow)
      exact List.mem_flatMap.mp ((List.mem_insertionSort _).mp hmem)

/-- An object is searched once. -/
theorem nodup_searchedFiles :
    ((searchedFiles db inputs projectId visibleLayers ephBranch).map (·.object.id)).Nodup := by
  rw [searchedFiles, List.Nodup, List.pairwise_map, List.pairwise_filterMap]
  refine List.Pairwise.imp_of_mem (fun {r r'} hr hr' hne f hf f' hf' hid => hne ?_)
    (nodup_join (List.Nodup.of_map _ db.contents_nodup) (List.Nodup.of_map _ db.objects_nodup))
  obtain ⟨hc, ho, hon⟩ := mem_join.mp hr
  obtain ⟨hc', ho', hon'⟩ := mem_join.mp hr'
  have hobject : ∀ {r : NewContentStoreRow × ObjectRow} {f : SearchedFile},
      (if (searchProjectIds db inputs projectId).contains r.2.row.projectId &&
          visibleLayers.contains r.2.row.layer && (!ephBranch || decide (r.2.row.layer < 0)) then
        (safeConvertFrom r.1.content).map (SearchedFile.mk r.2)
      else none) = some f → r.2 = f.object := by
    intro r f h
    split at h
    · obtain ⟨t, -, rfl⟩ := Option.map_eq_some_iff.mp h
      rfl
    · cases h
  have heq : r.2 = r'.2 := by
    rw [← hobject hf, ← hobject hf'] at hid
    exact List.inj_on_of_nodup_map db.objects_nodup ho ho' hid
  have hhash : r.1.contentHash = r'.1.contentHash := by
    rw [← beq_iff_eq.mp hon, ← beq_iff_eq.mp hon', heq]
  exact Prod.ext (List.inj_on_of_nodup_map db.contents_nodup hc hc' hhash) heq

/-! ### A content on its own -/

theorem toLower_eq_iff {m : Char} (hm : m ∈ ['\\', '%', '_']) (c : Char) :
    c.toLower = m ↔ c = m := by
  simp only [List.mem_cons, List.not_mem_nil, or_false] at hm
  unfold Char.toLower
  split
  · next h =>
    obtain ⟨hlow, hhigh⟩ : 65 ≤ c.toNat ∧ c.toNat ≤ 90 := h
    have hval : (c.val + ('a'.val - 'A'.val)).toNat = c.toNat + 32 := by
      show (c.val + 32).toNat = c.toNat + 32
      rw [UInt32.toNat_add]
      show (c.toNat + 32) % 2 ^ 32 = c.toNat + 32
      omega
    refine iff_of_false (fun heq => ?_) fun heq => ?_
    · have hnat := congrArg Char.toNat heq
      rw [show Char.toNat ⟨c.val + ('a'.val - 'A'.val), _⟩ = c.toNat + 32 from hval] at hnat
      rcases hm with rfl | rfl | rfl <;> simp at hnat <;> omega
    · rcases hm with rfl | rfl | rfl <;> subst heq <;> simp at hlow hhigh
  · rfl

/-- The locale that lower-cases the letters of ASCII. -/
def cLocale : Locale where
  lower := Char.toLower
  lower_eq_iff _ hm c := toLower_eq_iff hm c

/-- A store of one content, with one object of the first project on its layer. -/
def singleStore (content : Bytes) : Store :=
  { Store.initial [] with
    objects := [⟨1, 1, [], "a".toList, [], "h".toList, 3⟩]
    contentStore := [⟨"h".toList, content⟩] }

/-- The database of a content on its own. -/
def singleDatabase (locale : Locale) (content : Bytes) : SearchDatabase where
  store := singleStore content
  locale := locale
  textSearch _ _ := false
  objects_nodup := List.nodup_singleton _
  contents_nodup := List.nodup_singleton _

/-- The file of a content on its own. -/
def singleFile (text : Text) : SearchedFile := ⟨⟨1, 1, [], "a".toList, [], "h".toList, 3⟩, text⟩

theorem searchedFiles_single {locale : Locale} {content : Bytes} {text : Text}
    (htext : safeConvertFrom content = some text) (hfilter : inputs.filter = .and []) :
    searchedFiles (singleDatabase locale content) inputs 1 [3] false = [singleFile text] := by
  simp [searchedFiles, singleFile, singleDatabase, singleStore, join, searchProjectIds,
    composeObjects, hfilter, CompositeFilter.compose, CompositeFilter.composeAll,
    CompositeFilter.foldAnd, htext]

end Rows

end Askl
